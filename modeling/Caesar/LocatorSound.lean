import Caesar.RelaySound
import Caesar.JobSound

/-!
# How far locators reach

Both locators are samples of positions of the chain, from the tip back. Doubling
steps reach a fixed distance, after which the request ends above the genesis block
(`locatorIndices_zero`); halving the position ends at position `1` and never gets
to the genesis block of a longer chain (`halvings_pos`).
-/

namespace Caesar

open Codec

section
variable {K : Crypto} {chain : List Block}

/-! ## Samples of a chain -/

def sampled (K : Crypto) (chain : List Block) (positions : List Nat) : List Hash256 :=
  positions.filterMap fun i => chain[i]?.map fun block => block.hash K

theorem sampled_cons {i : Nat} {block : Block} (h : chain[i]? = some block) (positions : List Nat) :
    sampled K chain (i :: positions) = block.hash K :: sampled K chain positions := by
  simp [sampled, h]

theorem mem_sampled {positions : List Nat} {hash : Hash256} :
    hash ∈ sampled K chain positions ↔ ∃ i ∈ positions, ∃ block, chain[i]? = some block ∧ block.hash K = hash := by
  simp [sampled]

theorem tip_position (hne : chain ≠ []) : chain[chain.length - 1]? = some (chain.getLast hne) := by
  rw [← List.getLast?_eq_getElem?, List.getLast?_eq_some_getLast hne]

structure Locates (K : Crypto) (chain : List Block) (locators : List Hash256) : Prop where
  tip_first : locators.head? = chain.getLast?.map fun tip => tip.hash K
  length_le : locators.length ≤ Node.maxLocators
  on_chain : ∀ hash ∈ locators, ∃ block ∈ chain, block.hash K = hash

theorem locates_sampled {positions : List Nat} (hne : chain ≠ []) (hlen : positions.length < Node.maxLocators) :
    Locates K chain (sampled K chain ((chain.length - 1) :: positions)) := by
  refine ⟨?_, ?_, ?_⟩
  · rw [sampled_cons (tip_position hne), List.getLast?_eq_some_getLast hne]
    rfl
  · exact Nat.le_trans (List.length_filterMap_le ..) hlen
  · intro hash hh
    obtain ⟨i, -, block, hblock, hhash⟩ := mem_sampled.mp hh
    exact ⟨block, List.mem_of_getElem? hblock, hhash⟩

theorem genesis_sampled {positions : List Nat} {genesis : Block}
    (hapart : ∀ i block, 0 < i → chain[i]? = some block → block.hash K ≠ genesis.hash K)
    (h : genesis.hash K ∈ sampled K chain positions) : 0 ∈ positions := by
  obtain ⟨i, hi, block, hblock, hhash⟩ := mem_sampled.mp h
  rcases Nat.eq_zero_or_pos i with rfl | hpos
  · exact hi
  · exact absurd hhash (hapart i block hpos hblock)

/-! ## Doubling steps -/

/-- The distance from the first to the last position when nothing stops at the genesis block. -/
def locatorReach : Nat → Nat → Nat
  | 0, _ => 0
  | left + 1, step => step + locatorReach left (if Node.maxLocators - (left + 1) ≥ 10 then step * 2 else step)

theorem locatorIndices_zero (left : Nat) : ∀ index step : Nat,
    0 ∈ Node.locatorIndices left index step ↔ index ≤ locatorReach left step := by
  induction left with
  | zero =>
    intro index step
    rw [Node.locatorIndices, List.mem_singleton, locatorReach]
    omega
  | succ left ih =>
    intro index step
    unfold Node.locatorIndices locatorReach
    by_cases hzero : index = 0
    · simp [hzero]
    · rw [if_neg hzero, List.mem_cons, ih]
      split_ifs <;> omega

theorem locatorIndices_cons (left index step : Nat) :
    ∃ rest, Node.locatorIndices left index step = index :: rest ∧ rest.length ≤ left := by
  cases left with
  | zero => exact ⟨[], rfl, Nat.le_refl 0⟩
  | succ left =>
    unfold Node.locatorIndices
    by_cases hzero : index = 0
    · exact ⟨[], by rw [if_pos hzero], Nat.zero_le _⟩
    · exact ⟨_, by rw [if_neg hzero], locatorIndices_length ..⟩

theorem locatorReach_request : locatorReach (Node.maxLocators - 1) 1 = 4194312 := by decide

/-! ## Halving the position -/

/-- The positions that `request_sync_from_peer` adds after the tip. -/
def halvings : Nat → Nat → List Nat
  | 0, _ => []
  | room + 1, i => if i > 1 then i / 2 :: halvings room (i / 2) else []

theorem halvings_length (room : Nat) : ∀ i : Nat, (halvings room i).length ≤ room := by
  induction room with
  | zero => exact fun i => Nat.le_refl 0
  | succ room ih =>
    intro i
    unfold halvings
    by_cases hi : i > 1
    · rw [if_pos hi]
      exact Nat.succ_le_succ (ih _)
    · rw [if_neg hi]
      exact Nat.zero_le _

theorem halvings_pos (room : Nat) : ∀ i : Nat, 0 ∉ halvings room i := by
  induction room with
  | zero => exact fun i h => by cases h
  | succ room ih =>
    intro i h
    unfold halvings at h
    by_cases hi : i > 1
    · rw [if_pos hi] at h
      rcases List.mem_cons.mp h with hzero | h
      · omega
      · exact ih _ h
    · rw [if_neg hi] at h
      cases h

theorem extendLocator_eq (room : Nat) : ∀ {i : Nat} (locator : List Hash256), i ≤ chain.length →
    CachedNode.extendLocator (K := K) chain room i locator = locator ++ sampled K chain (halvings room i) := by
  induction room with
  | zero =>
    intro i locator _
    simp [CachedNode.extendLocator, halvings, sampled]
  | succ room ih =>
    intro i locator hle
    unfold CachedNode.extendLocator halvings
    by_cases hi : i > 1
    · have hlt : i / 2 < chain.length := by omega
      rw [if_pos hi, if_pos hi, List.getElem?_eq_getElem hlt, sampled_cons (List.getElem?_eq_getElem hlt)]
      dsimp only
      rw [ih _ (Nat.le_of_lt hlt), List.append_assoc]
      rfl
    · rw [if_neg hi, if_neg hi]
      simp [sampled]

theorem requestSyncFromPeer_eq {c fresh : CachedNode K} (hfresh : c.refresh = .ok fresh) (hne : fresh.chainCache ≠ []) :
    c.requestSyncFromPeer = (.ok (sampled K fresh.chainCache
      ((fresh.chainCache.length - 1) :: halvings 9 fresh.chainCache.length)), fresh) := by
  unfold CachedNode.requestSyncFromPeer
  rw [hfresh]
  dsimp only
  rw [List.getLast?_eq_some_getLast hne]
  dsimp only
  rw [extendLocator_eq 9 _ (Nat.le_refl _), sampled_cons (tip_position hne)]
  rfl

/-! ## Common ancestors -/

/-- The locator has the genesis block, and every peer that has it too answers from a block of both. -/
def FindsAncestor (K : Crypto) (genesis : Block) (locators : List Hash256) : Prop :=
  genesis.hash K ∈ locators ∧ ∀ (peer : Node K) (theirs : List Block), peer.storage.load K = .ok theirs →
    theirs[0]? = some genesis → ∃ i, locators.findSome? (Node.chainIndex K theirs) = some i ∧
      peer.handleGetHeaders (writeHashes locators) =
        ⟨.ok (), peer, [Node.headersFrame (((theirs.drop (i + 1)).take Node.maxHeaders).map Block.header)]⟩

theorem chainIndex_isSome {genesis : Block} (h : chain[0]? = some genesis) :
    (Node.chainIndex K chain (genesis.hash K)).isSome := by
  unfold Node.chainIndex
  rw [List.findIdx?_isSome, List.any_eq_true]
  exact ⟨genesis, List.mem_of_getElem? h, decide_eq_true rfl⟩

theorem findsAncestor_of_mem {genesis : Block} {locators : List Hash256} (hlen : locators.length ≤ Node.maxLocators)
    (h : genesis.hash K ∈ locators) : FindsAncestor K genesis locators := by
  refine ⟨h, ?_⟩
  intro peer theirs hload hgenesis
  have hsome : (locators.findSome? (Node.chainIndex K theirs)).isSome := by
    rw [List.findSome?_isSome_iff]
    exact ⟨_, h, chainIndex_isSome hgenesis⟩
  obtain ⟨i, hi⟩ := Option.isSome_iff_exists.mp hsome
  refine ⟨i, hi, ?_⟩
  rw [handleGetHeaders_eq hload (List.ne_nil_of_mem h) hlen, Node.headersAfter, hi]

theorem locators_reach_genesis {node : Node K} {c fresh : CachedNode K} {genesis : Block}
    (hload : node.storage.load K = .ok chain) (hfresh : c.refresh = .ok fresh) (hcache : fresh.chainCache = chain)
    (hgenesis : chain[0]? = some genesis) :
    ∃ requested synced, node.requestHeaders = ⟨.ok (), node, [⟨.getHeaders, writeHashes requested⟩]⟩ ∧
      c.requestSyncFromPeer = (.ok synced, fresh) ∧ Locates K chain requested ∧ Locates K chain synced ∧
      (chain.length ≤ 4194313 → FindsAncestor K genesis requested) ∧
      (chain.length = 1 → FindsAncestor K genesis synced) ∧
      ((∀ i block, 0 < i → chain[i]? = some block → block.hash K ≠ genesis.hash K) →
        (FindsAncestor K genesis requested → chain.length ≤ 4194313) ∧
        (FindsAncestor K genesis synced → chain.length = 1)) := by
  have hpos : 0 < chain.length := (List.getElem?_eq_some_iff.mp hgenesis).1
  have hne : chain ≠ [] := List.ne_nil_of_length_pos hpos
  obtain ⟨rest, hrest, hrestlen⟩ := locatorIndices_cons (Node.maxLocators - 1) (chain.length - 1) 1
  have hrequested : Locates K chain (Node.headerLocators K chain) := by
    show Locates K chain (sampled K chain (Node.locatorIndices (Node.maxLocators - 1) (chain.length - 1) 1))
    rw [hrest]
    exact locates_sampled hne (Nat.lt_of_le_of_lt hrestlen (by decide))
  have hsynced : Locates K chain (sampled K chain ((chain.length - 1) :: halvings 9 chain.length)) :=
    locates_sampled hne (Nat.lt_of_le_of_lt (halvings_length 9 _) (by decide))
  have hzero := locatorIndices_zero (Node.maxLocators - 1) (chain.length - 1) 1
  rw [locatorReach_request] at hzero
  subst hcache
  refine ⟨_, _, requestHeaders_eq hload, requestSyncFromPeer_eq hfresh hne, hrequested, hsynced, ?_, ?_, ?_⟩
  · intro hshort
    apply findsAncestor_of_mem hrequested.length_le
    exact mem_sampled.mpr ⟨0, hzero.mpr (by omega), genesis, hgenesis, rfl⟩
  · intro hone
    apply findsAncestor_of_mem hsynced.length_le
    refine mem_sampled.mpr ⟨0, ?_, genesis, hgenesis, rfl⟩
    rw [hone]
    exact List.mem_cons_self
  · intro hapart
    refine ⟨?_, ?_⟩
    · rintro ⟨hmem, -⟩
      have := hzero.mp (genesis_sampled hapart hmem)
      omega
    · rintro ⟨hmem, -⟩
      rcases List.mem_cons.mp (genesis_sampled hapart hmem) with hone | hin
      · omega
      · exact absurd hin (halvings_pos 9 _)

end

def toyLong : List Block := PoolWorld.paced 120 16

theorem toyLong_loaded : (toyNode toyLong).storage.load toyCrypto = .ok toyLong := by decide +kernel

theorem locators_reach_genesis_toy :
    (∃ synced, (CachedNode.started (toyNode [toyGenesis]) [toyGenesis]).requestSyncFromPeer.1 = .ok synced ∧
      FindsAncestor toyCrypto toyGenesis synced) ∧
    ∃ requested, (toyNode toyLong).requestHeaders = ⟨.ok (), toyNode toyLong, [⟨.getHeaders, writeHashes requested⟩]⟩ ∧
      FindsAncestor toyCrypto toyGenesis requested := by
  refine ⟨?_, ?_⟩
  · have hfresh : (CachedNode.started (toyNode [toyGenesis]) [toyGenesis]).refresh =
        .ok ⟨toyNode [toyGenesis], [toyGenesis], true, 0, [toyGenesis], 0⟩ := bind_ok.mpr ⟨_, toyGenesis_loaded, rfl⟩
    obtain ⟨-, synced, -, hsynced, -, -, -, hfinds, -⟩ := locators_reach_genesis toyGenesis_loaded hfresh rfl rfl
    exact ⟨synced, by rw [hsynced], hfinds rfl⟩
  · have hfresh : (CachedNode.started (toyNode toyLong) toyLong).refresh =
        .ok { CachedNode.started (toyNode toyLong) toyLong with chainCache := toyLong, chainCacheValid := true } :=
      bind_ok.mpr ⟨_, toyLong_loaded, rfl⟩
    have hgenesis : toyLong[0]? = some toyGenesis := by decide +kernel
    have hlength : toyLong.length = 17 := by decide +kernel
    obtain ⟨requested, -, hrequested, -, -, -, hfinds, -, -⟩ := locators_reach_genesis toyLong_loaded hfresh rfl hgenesis
    exact ⟨requested, hrequested, hfinds (by rw [hlength]; decide)⟩

/-- With two blocks the halved position stops at the tip again, which a peer with the genesis block alone does not have. -/
theorem sync_locator_misses_genesis :
    (toyNode [toyGenesis, toyFirst]).storage.load toyCrypto = .ok [toyGenesis, toyFirst] ∧
    (CachedNode.started (toyNode [toyGenesis, toyFirst]) [toyGenesis, toyFirst]).requestSyncFromPeer.1 =
      .ok [toyFirst.hash toyCrypto, toyFirst.hash toyCrypto] ∧
    toyGenesis.hash toyCrypto ∉ [toyFirst.hash toyCrypto, toyFirst.hash toyCrypto] ∧
    (toyNode [toyGenesis]).storage.load toyCrypto = .ok [toyGenesis] ∧
    [toyFirst.hash toyCrypto, toyFirst.hash toyCrypto].findSome? (Node.chainIndex toyCrypto [toyGenesis]) = none := by
  refine ⟨toyPair_loaded, ?_, ?_, toyGenesis_loaded, ?_⟩ <;> decide +kernel

end Caesar
