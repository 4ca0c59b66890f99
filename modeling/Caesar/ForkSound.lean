import Caesar.CommitSound
import Caesar.WorkSound
import Caesar.Relay

/-!
# Two chains with one genesis

Positions are heights, so blocks with one hash are at one position, and two
chains that share a block share everything before it (`Shared.take_eq`). The
first locator that the other chain knows is therefore a point where the chains
agree, and what the peer offers continues from there.
-/

namespace Caesar

open Codec

section
variable {K : Crypto} {u u' : UTXOSet} {t t' : UInt64} {chain chain' : List Block}

/-! ## Links -/

/-- The headers of the blocks follow each other, the first after `block`. -/
def Linked (K : Crypto) : Block → List Block → Prop
  | _, [] => True
  | block, next :: rest =>
    next.header.previousHash = block.hash K ∧ next.header.height = block.header.height + 1 ∧ Linked K next rest

theorem Linked.take : ∀ {blocks : List Block} {block : Block}, Linked K block blocks → ∀ n, Linked K block (blocks.take n)
  | [], _, _, _ => by rw [List.take_nil]; trivial
  | _ :: _, _, _, 0 => trivial
  | _ :: _, _, h, n + 1 => ⟨h.1, h.2.1, h.2.2.take n⟩

theorem Replay.extends (h : Replay K chain u t) {i : Nat} {block next : Block} (hb : chain[i]? = some block)
    (hn : chain[i + 1]? = some next) :
    next.header.previousHash = block.hash K ∧ next.header.height = block.header.height + 1 := by
  obtain ⟨_, _, _, _, -, ha, -⟩ := h.appends (Nat.succ_pos i) hn
  obtain ⟨previous, hlast, hheight, hprev, -⟩ := ha.extends_
  rw [List.getLast?_take, if_neg (Nat.succ_ne_zero i), Nat.succ_sub_one, hb, Option.some_or, Option.some.injEq] at hlast
  exact ⟨hlast ▸ hprev, hlast ▸ hheight⟩

theorem Replay.linked (h : Replay K chain u t) : ∀ {n i : Nat} {block : Block}, chain.length - (i + 1) = n →
    chain[i]? = some block → Linked K block (chain.drop (i + 1))
  | 0, i, block, hn, _ => by
    rw [List.drop_eq_nil_of_le (by omega)]
    trivial
  | n + 1, i, block, hn, hb => by
    have hlt : i + 1 < chain.length := by omega
    have hnext := List.getElem?_eq_getElem hlt
    rw [List.drop_eq_getElem_cons hlt]
    have hrest : chain.length - (i + 1 + 1) = n := by omega
    exact ⟨(h.extends hb hnext).1, (h.extends hb hnext).2, h.linked hrest hnext⟩

theorem checkHeaders_linked (e e' : String) : ∀ {blocks : List Block} {block : Block}, Linked K block blocks →
    Node.checkHeaders K e e' (blocks.map Block.header) (block.header.height + 1) (block.hash K) = .ok ()
  | [], _, _ => rfl
  | next :: rest, block, h => by
    rw [List.map_cons, Node.checkHeaders, if_neg (by simp [h.2.1]), if_neg (by simp [h.1])]
    rw [← h.2.1]
    exact checkHeaders_linked e e' h.2.2

theorem assembleLoop_linked : ∀ {blocks : List Block} {block : Block}, Linked K block blocks →
    assembleLoop K ((blocks.map Block.header).zip blocks) (block.hash K) (block.header.height + 1) = some blocks
  | [], _, _ => rfl
  | next :: rest, block, h => by
    rw [List.map_cons, List.zip_cons_cons, assembleLoop, if_neg (by simp [Block.hash]), if_neg (by simp [h.1]),
      if_neg (by simp [h.2.1]), if_neg (by simp), ← h.2.1, assembleLoop_linked h.2.2]
    rfl

/-! ## Positions -/

theorem CollisionFree.pair {blocks : List Block} (h : CollisionFree K (blocks.flatMap (Block.strings K))) {a b : Block}
    (ha : a ∈ blocks) (hb : b ∈ blocks) : CollisionFree K (a.strings K ++ b.strings K) := by
  refine h.mono fun x hx => List.mem_flatMap.mpr ?_
  rcases List.mem_append.mp hx with hx | hx
  · exact ⟨a, ha, hx⟩
  · exact ⟨b, hb, hx⟩

theorem index_of_hash (h : Replay K chain u t) (h' : Replay K chain' u' t')
    (hcf : CollisionFree K ((chain ++ chain').flatMap (Block.strings K))) {i j : Nat} {a b : Block}
    (ha : chain[i]? = some a) (hb : chain'[j]? = some b) (hash : a.hash K = b.hash K) : i = j := by
  have hheader := header_eq_of_hash (hcf.pair (List.mem_append_left _ (List.mem_of_getElem? ha))
    (List.mem_append_right _ (List.mem_of_getElem? hb))) hash
  rw [← h.height i a ha, hheader, h'.height j b hb]

theorem chainIndex_eq (h : Replay K chain u t) (hcf : CollisionFree K (chain.flatMap (Block.strings K))) {i : Nat}
    {block : Block} (hb : chain[i]? = some block) : Node.chainIndex K chain (block.hash K) = some i := by
  obtain ⟨hlt, hget⟩ := List.getElem?_eq_some_iff.mp hb
  have hcf' : CollisionFree K ((chain ++ chain).flatMap (Block.strings K)) := by
    rw [List.flatMap_append]
    exact hcf.mono fun x hx => (List.mem_append.mp hx).elim id id
  rw [Node.chainIndex, List.findIdx?_eq_some_iff_getElem]
  refine ⟨hlt, by simp [hget], fun j hji => ?_⟩
  intro hj
  have := index_of_hash h h hcf' (List.getElem?_eq_getElem (Nat.lt_trans hji hlt)) hb (of_decide_eq_true hj)
  omega

theorem chainIndex_some {hash : Hash256} {i : Nat} (h : Node.chainIndex K chain hash = some i) :
    ∃ block, chain[i]? = some block ∧ block.hash K = hash := by
  obtain ⟨hlt, hp, -⟩ := List.findIdx?_eq_some_iff_getElem.mp h
  exact ⟨chain[i], List.getElem?_eq_getElem hlt, of_decide_eq_true hp⟩

end

/-! ## Agreement -/

/-- Two chains from one genesis block, with no accident of SHA-256 in either. -/
structure Shared (K : Crypto) (mine theirs : List Block) : Prop where
  genesis : mine.head? = theirs.head?
  collisionFree : CollisionFree K ((mine ++ theirs).flatMap (Block.strings K))
  acyclic : ∀ block ∈ mine ++ theirs, Acyclic K block.transactions

section
variable {K : Crypto} {mine theirs : List Block} {u u' : UTXOSet} {t t' : UInt64}

theorem Shared.take_eq (h : Shared K mine theirs) (hm : Replay K mine u t) (ht : Replay K theirs u' t') :
    ∀ {i : Nat} {a b : Block}, mine[i]? = some a → theirs[i]? = some b → a.hash K = b.hash K →
      mine.take (i + 1) = theirs.take (i + 1)
  | 0, a, b, ha, hb, _ => by
    have he := h.genesis
    rw [List.head?_eq_getElem?, List.head?_eq_getElem?] at he
    rw [List.take_add_one, List.take_add_one, he, List.take_zero, List.take_zero]
  | i + 1, a, b, ha, hb, hash => by
    obtain ⟨_, _, _, _, -, haa, -⟩ := hm.appends (Nat.succ_pos i) ha
    obtain ⟨_, _, _, _, -, hba, -⟩ := ht.appends (Nat.succ_pos i) hb
    have hmem := List.mem_append_left theirs (List.mem_of_getElem? ha)
    have hmem' := List.mem_append_right mine (List.mem_of_getElem? hb)
    obtain rfl := block_eq_of_hash haa.basic haa.applies hba.basic hba.applies (h.collisionFree.pair hmem hmem')
      (h.acyclic _ hmem) (h.acyclic _ hmem') hash
    have hlt := (List.getElem?_eq_some_iff.mp ha).1
    have hlt' := (List.getElem?_eq_some_iff.mp hb).1
    have hprev := List.getElem?_eq_getElem (show i < mine.length by omega)
    have hprev' := List.getElem?_eq_getElem (show i < theirs.length by omega)
    have hih := h.take_eq hm ht hprev hprev' (by rw [← (hm.extends hprev ha).1, (ht.extends hprev' hb).1])
    rw [List.take_add_one, ha, hih, ← hb, ← List.take_add_one]

/-! ## Locators -/

theorem locatorIndices_le : ∀ {left index step : Nat}, ∀ i ∈ Node.locatorIndices left index step, i ≤ index
  | 0, index, step, i, hi => by
    rw [Node.locatorIndices, List.mem_singleton] at hi
    omega
  | left + 1, index, step, i, hi => by
    unfold Node.locatorIndices at hi
    split at hi
    · rw [List.mem_singleton] at hi
      omega
    · rcases List.mem_cons.mp hi with rfl | hi
      · exact Nat.le_refl _
      · have := locatorIndices_le i hi
        split at this <;> omega

theorem locatorIndices_length : ∀ (left index step : Nat), (Node.locatorIndices left index step).length ≤ left + 1
  | 0, _, _ => by simp [Node.locatorIndices]
  | left + 1, index, step => by
    unfold Node.locatorIndices
    split
    · simp
    · have := locatorIndices_length left (if index > step then index - step else 0)
        (if Node.maxLocators - (left + 1) ≥ 10 then step * 2 else step)
      simp only [List.length_cons]
      omega

theorem locatorIndices_ne_nil : ∀ (left index step : Nat), Node.locatorIndices left index step ≠ []
  | 0, _, _ => by simp [Node.locatorIndices]
  | left + 1, index, step => by
    unfold Node.locatorIndices
    split <;> simp

theorem headerLocators_mem {chain : List Block} {hash : Hash256} (h : hash ∈ Node.headerLocators K chain) :
    ∃ (i : Nat) (block : Block), chain[i]? = some block ∧ block.hash K = hash := by
  obtain ⟨i, -, hi⟩ := List.mem_filterMap.mp h
  obtain ⟨block, hb, hash⟩ := Option.map_eq_some_iff.mp hi
  exact ⟨i, block, hb, hash⟩

theorem headerLocators_length (chain : List Block) : (Node.headerLocators K chain).length ≤ Node.maxLocators :=
  Nat.le_trans (List.length_filterMap_le ..) (locatorIndices_length ..)

theorem headerLocators_ne_nil {chain : List Block} (hne : chain ≠ []) : Node.headerLocators K chain ≠ [] := by
  have hpos := List.length_pos_of_ne_nil hne
  obtain ⟨i, hi⟩ := List.exists_mem_of_ne_nil _ (locatorIndices_ne_nil (Node.maxLocators - 1) (chain.length - 1) 1)
  have hlt : i < chain.length := by have := locatorIndices_le i hi; omega
  exact List.ne_nil_of_mem (List.mem_filterMap.mpr ⟨i, hi, by rw [List.getElem?_eq_getElem hlt]; rfl⟩)

/-! ## What a peer offers -/

/-- The position of the first locator of `mine` that is on `theirs`. -/
def forkPoint (K : Crypto) (mine theirs : List Block) : Option Nat :=
  (Node.headerLocators K mine).findSome? (Node.chainIndex K theirs)

/-- The blocks whose headers are sent in answer to the locators of `mine`. -/
def offered (K : Crypto) (mine theirs : List Block) : List Block :=
  match forkPoint K mine theirs with
  | none => []
  | some i => (theirs.drop (i + 1)).take Node.maxHeaders

/-- The chain that ends with them. -/
def offeredChain (K : Crypto) (mine theirs : List Block) : List Block :=
  match forkPoint K mine theirs with
  | none => []
  | some i => theirs.take (i + 1 + Node.maxHeaders)

theorem headersAfter_eq (mine theirs : List Block) :
    Node.headersAfter K theirs (Node.headerLocators K mine) = (offered K mine theirs).map Block.header := by
  unfold Node.headersAfter offered forkPoint
  cases (Node.headerLocators K mine).findSome? (Node.chainIndex K theirs) with
  | none => rfl
  | some i => rfl

theorem offered_length (mine theirs : List Block) : (offered K mine theirs).length ≤ Node.maxHeaders := by
  unfold offered
  split
  · exact Nat.zero_le _
  · exact List.length_take_le ..

theorem offered_sub {block : Block} (h : block ∈ offered K mine theirs) : block ∈ theirs := by
  unfold offered at h
  split at h
  · cases h
  · exact List.mem_of_mem_drop (List.mem_of_mem_take h)

theorem Shared.forkPoint_some (h : Shared K mine theirs) (hm : Replay K mine u t) (ht : Replay K theirs u' t') {i : Nat}
    (hi : forkPoint K mine theirs = some i) : ∃ block, mine[i]? = some block ∧ theirs[i]? = some block ∧
      mine.take (i + 1) = theirs.take (i + 1) := by
  obtain ⟨hash, hloc, hindex⟩ := List.exists_of_findSome?_eq_some hi
  obtain ⟨j, a, ha, rfl⟩ := headerLocators_mem hloc
  obtain ⟨b, hb, hash⟩ := chainIndex_some hindex
  obtain rfl := index_of_hash hm ht h.collisionFree ha hb hash.symm
  have htake := h.take_eq hm ht ha hb hash.symm
  refine ⟨a, ha, ?_, htake⟩
  rw [← List.getElem?_take_of_lt (Nat.lt_succ_self j), ← htake, List.getElem?_take_of_lt (Nat.lt_succ_self j), ha]

theorem offeredChain_eq {i : Nat} (hi : forkPoint K mine theirs = some i) :
    offeredChain K mine theirs = theirs.take (i + 1) ++ offered K mine theirs := by
  rw [offeredChain, offered, hi]
  dsimp only
  rw [List.take_add]

end

end Caesar
