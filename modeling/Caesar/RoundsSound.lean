import Caesar.SyncSound

/-!
# Rounds of the synchronisation

The relay asks its peers for headers again and again, and a peer offers at most
2000 blocks each time. The first round decides: when the blocks offered in it have
more work than what they replace, every later round extends the chain by the next
2000 blocks until it is the peer's; when not, the node throws and the connection
ends, whatever work the rest of the peer's chain has.
-/

namespace Caesar

open Codec

section
variable {K : Crypto}

def Exchange.quiet (e : Exchange K) : Bool :=
  e.requested.result.isOk && e.answered.result.isOk && e.asked.result.isOk && e.served.result.isOk && e.settled.result.isOk

structure Link (K : Crypto) where
  connected : Bool
  node : Node K
  other : Node K

/-- One round over a connection; a handler that throws ends it. -/
def Link.round (peer self : UInt64) (link : Link K) (choices : Node.Choice K × Node.Choice K) : Link K :=
  if link.connected then
    let e := exchange choices.1 choices.2 peer self link.node link.other
    ⟨e.quiet, e.settled.node, e.served.node⟩
  else link

def Link.rounds (peer self : UInt64) (choices : List (Node.Choice K × Node.Choice K)) (link : Link K) : Link K :=
  choices.foldl (Link.round peer self) link

def Compact (chain : List Block) : Prop :=
  ∀ batch, batch <:+: chain → batch.length ≤ maxBatch → 16 + (blockList batch).length ≤ czrP2PMaxPayload

variable {mine theirs : List Block} {node other : Node K} {peer : UInt64}

/-! ## One round -/

theorem isOk_iff {r : Result Unit} : r.isOk = true ↔ r = .ok () := by
  cases r with
  | error e => simp [Except.isOk, Except.toBool]
  | ok a => simp [Except.isOk, Except.toBool]

theorem Exchange.quiet_iff {e : Exchange K} : e.quiet = true ↔ e.Quiet := by
  simp only [quiet, Quiet, Bool.and_eq_true, isOk_iff, and_assoc]

theorem offered_part (mine theirs : List Block) : offered K mine theirs <:+: theirs := by
  unfold offered
  cases forkPoint K mine theirs with
  | none => exact List.nil_infix
  | some i => exact (List.take_prefix _ _).isInfix.trans (List.drop_suffix _ _).isInfix

theorem Compact.fitting (h : Compact theirs) (ht : Loadable K theirs) (session : P2PSyncSessionId) (mine : List Block) :
    Fitting K session mine theirs := by
  refine OneFrame.fitting (fun batch hb => ?_) ht
  have hpart : batch <:+: offered K mine theirs := by
    rw [← requests_flatten (offered K mine theirs)]
    exact List.infix_of_mem_flatten hb
  have hsize := h batch (hpart.trans (offered_part mine theirs)) (requests_mem hb).2
  split
  · show (blockList batch).length ≤ _
    omega
  · rw [syncFrameOf_length]
    omega

/-- The node waits for nothing from the peer. -/
structure Idle (peer : UInt64) (chain : List Block) (node : Node K) : Prop where
  load : node.storage.load K = .ok chain
  running : node.running = true
  pending : node.pendingChainSyncs peer = none

/-- What one round does: nothing when nothing is offered; else it takes the offered chain if that has more work, and
ends the connection if not. -/
theorem Idle.exchange (choice otherChoice : Node.Choice K) (self : UInt64) (h : Idle peer mine node)
    (htheirs : other.storage.load K = .ok theirs) (hshared : Shared K mine theirs) (hcompact : Compact theirs) :
    (offered K mine theirs = [] ∧ exchange choice otherChoice peer self node other =
        ⟨⟨.ok (), node, [⟨.getHeaders, writeHashes (Node.headerLocators K mine)⟩]⟩,
          ⟨.ok (), other, [Node.headersFrame []]⟩, ⟨.ok (), node, []⟩, ⟨.ok (), other, []⟩, ⟨.ok (), node, []⟩⟩) ∨
      offered K mine theirs ≠ [] ∧ (exchange choice otherChoice peer self node other).served.node = other ∧
        ((exchange choice otherChoice peer self node other).quiet = true ↔ work mine < work (offeredChain K mine theirs)) ∧
        if work mine < work (offeredChain K mine theirs) then
          Idle peer (offeredChain K mine theirs) (exchange choice otherChoice peer self node other).settled.node
        else (exchange choice otherChoice peer self node other).settled.node.storage = some mine := by
  obtain ⟨hstore, hl⟩ := load_ok.mp h.load
  obtain ⟨-, hl'⟩ := load_ok.mp htheirs
  have hfit := hcompact.fitting hl' choice.sessionId mine
  by_cases hne : offered K mine theirs = []
  · refine Or.inl ⟨hne, ?_⟩
    have hasked : node.handleHeaders peer choice.sessionId
        (Node.headersFrame ((offered K mine theirs).map Block.header)).payload = ⟨.ok (), node, []⟩ := by
      rw [hne]
      exact handleHeaders_none receiveHeaders_nil
    have hserved : other.readFrames otherChoice self [] = ⟨.ok (), other, []⟩ := rfl
    rw [exchange_eq h.load htheirs hasked hserved, hne]
    rfl
  · obtain ⟨i, ancestor, ho⟩ := hshared.offer hl hl' hne
    refine Or.inr ⟨hne, ?_⟩
    by_cases hi : i = mine.length - 1
    · have hlt := (List.getElem?_eq_some_iff.mp ho.here).1
      have hmore : work mine < work (offeredChain K mine theirs) := by
        have := work_pos hne
        rw [ho.chain_eq, List.take_of_length_le (by omega), work_append]
        omega
      rw [exchange_extend ho h.load htheirs hshared hfit hne hi, if_pos hmore]
      exact ⟨rfl, iff_of_true rfl hmore, load_ok.mpr ⟨rfl, ho.loadable hl'⟩, h.running, h.pending⟩
    · obtain ⟨_, _, _, _, _, heq⟩ := exchange_replace otherChoice self ho h.load htheirs hshared h.running hfit hne hi h.pending
      rw [heq]
      refine ⟨rfl, ?_⟩
      by_cases hmore : work mine < work (offeredChain K mine theirs)
      · simp only [if_pos hmore]
        exact ⟨iff_of_true rfl hmore, load_ok.mpr ⟨rfl, ho.loadable hl'⟩, h.running, by simp [Node.setPending]⟩
      · simp only [if_neg hmore]
        exact ⟨iff_of_false (by simp [Exchange.quiet, fail, Except.isOk, Except.toBool]) hmore, hstore⟩

theorem Idle.round_same (choices : Node.Choice K × Node.Choice K) (self : UInt64) (h : Idle peer mine node)
    (htheirs : other.storage.load K = .ok theirs) (hshared : Shared K mine theirs) (hcompact : Compact theirs)
    (hnone : offered K mine theirs = []) : Link.round peer self ⟨true, node, other⟩ choices = ⟨true, node, other⟩ := by
  rcases h.exchange choices.1 choices.2 self htheirs hshared hcompact with ⟨-, heq⟩ | ⟨hne, -⟩
  · rw [Link.round, if_pos rfl, heq]
    rfl
  · exact absurd hnone hne

theorem Idle.round_more (choices : Node.Choice K × Node.Choice K) (self : UInt64) (h : Idle peer mine node)
    (htheirs : other.storage.load K = .ok theirs) (hshared : Shared K mine theirs) (hcompact : Compact theirs)
    (hne : offered K mine theirs ≠ []) (hmore : work mine < work (offeredChain K mine theirs)) :
    ∃ next, Link.round peer self ⟨true, node, other⟩ choices = ⟨true, next, other⟩ ∧
      Idle peer (offeredChain K mine theirs) next := by
  rcases h.exchange choices.1 choices.2 self htheirs hshared hcompact with ⟨hnone, -⟩ | ⟨-, hother, hquiet, hnext⟩
  · exact absurd hnone hne
  · rw [if_pos hmore] at hnext
    refine ⟨_, ?_, hnext⟩
    rw [Link.round, if_pos rfl]
    dsimp only
    rw [hquiet.mpr hmore, hother]

theorem Idle.round_less (choices : Node.Choice K × Node.Choice K) (self : UInt64) (h : Idle peer mine node)
    (htheirs : other.storage.load K = .ok theirs) (hshared : Shared K mine theirs) (hcompact : Compact theirs)
    (hne : offered K mine theirs ≠ []) (hless : ¬ work mine < work (offeredChain K mine theirs)) :
    (Link.round peer self ⟨true, node, other⟩ choices).connected = false ∧
      (Link.round peer self ⟨true, node, other⟩ choices).node.storage = some mine := by
  rcases h.exchange choices.1 choices.2 self htheirs hshared hcompact with ⟨hnone, -⟩ | ⟨-, -, hquiet, hnext⟩
  · exact absurd hnone hne
  · rw [if_neg hless] at hnext
    rw [Link.round, if_pos rfl]
    exact ⟨Bool.eq_false_iff.mpr (mt hquiet.mp hless), hnext⟩

/-! ## All rounds -/

theorem Shared.take (h : Shared K mine theirs) {k : Nat} (hk : 0 < k) : Shared K (theirs.take k) theirs := by
  have hsub : ∀ block ∈ theirs.take k ++ theirs, block ∈ theirs := by
    intro block hb
    exact (List.mem_append.mp hb).elim List.mem_of_mem_take id
  refine ⟨?_, h.right.mono fun x hx => ?_, fun block hb => h.acyclic block (List.mem_append_right _ (hsub block hb))⟩
  · cases theirs with
    | nil => simp
    | cons genesis rest =>
      obtain ⟨k, rfl⟩ := Nat.exists_eq_succ_of_ne_zero (Nat.pos_iff_ne_zero.mp hk)
      rfl
  · obtain ⟨block, hb, hx⟩ := List.mem_flatMap.mp hx
    exact List.mem_flatMap.mpr ⟨block, hsub block hb, hx⟩

theorem forkPoint_take {u : UTXOSet} {t : UInt64} (hr : Replay K theirs u t)
    (hcf : CollisionFree K (theirs.flatMap (Block.strings K))) {k : Nat} (hk : k < theirs.length) :
    forkPoint K (theirs.take (k + 1)) theirs = some k := by
  have hlen : (theirs.take (k + 1)).length - 1 = k := by
    rw [List.length_take]
    omega
  obtain ⟨rest, hrest⟩ : ∃ rest, Node.locatorIndices (Node.maxLocators - 1) k 1 = k :: rest := by
    show ∃ rest, Node.locatorIndices 31 k 1 = k :: rest
    unfold Node.locatorIndices
    split
    · exact ⟨_, rfl⟩
    · exact ⟨_, rfl⟩
  have htip : (theirs.take (k + 1))[k]? = some (theirs[k]) := by
    rw [List.getElem?_take_of_lt (Nat.lt_succ_self k), List.getElem?_eq_getElem hk]
  have hindex := chainIndex_eq hr hcf (List.getElem?_eq_getElem hk)
  rw [forkPoint, Node.headerLocators, hlen, hrest, List.filterMap_cons, htip]
  simp only [Option.map_some, List.findSome?_cons, hindex]

theorem Idle.round_take (choices : Node.Choice K × Node.Choice K) (self : UInt64) {k : Nat} (hk : 0 < k)
    (h : Idle peer (theirs.take k) node) (htheirs : other.storage.load K = .ok theirs) (hshared : Shared K mine theirs)
    (hcompact : Compact theirs) : ∃ next, Link.round peer self ⟨true, node, other⟩ choices = ⟨true, next, other⟩ ∧
      Idle peer (theirs.take (k + Node.maxHeaders)) next := by
  obtain ⟨u, t, hr⟩ := (load_ok.mp htheirs).2.replay
  by_cases hlt : k < theirs.length
  · obtain ⟨j, rfl⟩ := Nat.exists_eq_succ_of_ne_zero (Nat.pos_iff_ne_zero.mp hk)
    have hfork := forkPoint_take hr hshared.right (Nat.lt_of_succ_lt hlt)
    have hne : offered K (theirs.take (j + 1)) theirs ≠ [] := by
      rw [offered, hfork]
      refine List.ne_nil_of_length_pos ?_
      simp only [Node.maxHeaders, List.length_take, List.length_drop]
      omega
    have hmore : work (theirs.take (j + 1)) < work (offeredChain K (theirs.take (j + 1)) theirs) := by
      have := work_pos hne
      rw [offeredChain_eq hfork, work_append]
      omega
    obtain ⟨next, hround, hnext⟩ := h.round_more choices self htheirs (hshared.take hk) hcompact hne hmore
    rw [offeredChain, hfork] at hnext
    exact ⟨next, hround, hnext⟩
  · have hpos := List.length_pos_of_ne_nil hr.ne_nil
    have hall : theirs.take k = theirs.take (theirs.length - 1 + 1) := by
      rw [List.take_of_length_le (Nat.le_of_not_lt hlt), List.take_of_length_le (by omega)]
    have hnone : offered K (theirs.take k) theirs = [] := by
      rw [hall, offered, forkPoint_take hr hshared.right (by omega)]
      simp [Nat.sub_add_cancel hpos]
    refine ⟨node, h.round_same choices self htheirs (hshared.take hk) hcompact hnone, ?_⟩
    rw [List.take_of_length_le (by omega)]
    rw [List.take_of_length_le (Nat.le_of_not_lt hlt)] at h
    exact h

theorem Idle.rounds_take (htheirs : other.storage.load K = .ok theirs) (hshared : Shared K mine theirs)
    (hcompact : Compact theirs) (self : UInt64) : ∀ (choices : List (Node.Choice K × Node.Choice K)) {k : Nat}
      {node : Node K}, 0 < k → Idle peer (theirs.take k) node →
      ∃ last, Link.rounds peer self choices ⟨true, node, other⟩ = ⟨true, last, other⟩ ∧
        Idle peer (theirs.take (k + choices.length * Node.maxHeaders)) last
  | [], k, node, _, h => ⟨node, rfl, by simpa using h⟩
  | choice :: choices, k, node, hk, h => by
    obtain ⟨next, hround, hnext⟩ := h.round_take choice self hk htheirs hshared hcompact
    obtain ⟨last, hrounds, hlast⟩ := Idle.rounds_take htheirs hshared hcompact self choices (Nat.add_pos_left hk _) hnext
    refine ⟨last, ?_, ?_⟩
    · show Link.rounds peer self choices (Link.round peer self ⟨true, node, other⟩ choice) = _
      rw [hround, hrounds]
    · rw [List.length_cons, Nat.succ_mul, Nat.add_comm _ Node.maxHeaders, ← Nat.add_assoc]
      exact hlast

theorem Idle.rounds_same (h : Idle peer mine node) (htheirs : other.storage.load K = .ok theirs)
    (hshared : Shared K mine theirs) (hcompact : Compact theirs) (self : UInt64) (hnone : offered K mine theirs = []) :
    ∀ choices, Link.rounds peer self choices ⟨true, node, other⟩ = ⟨true, node, other⟩
  | [] => rfl
  | choice :: choices => by
    show Link.rounds peer self choices (Link.round peer self ⟨true, node, other⟩ choice) = _
    rw [h.round_same choice self htheirs hshared hcompact hnone]
    exact Idle.rounds_same h htheirs hshared hcompact self hnone choices

theorem rounds_ended {link : Link K} (h : link.connected = false) (peer self : UInt64) :
    ∀ choices, Link.rounds peer self choices link = link
  | [] => rfl
  | choice :: choices => by
    show Link.rounds peer self choices (Link.round peer self link choice) = _
    rw [Link.round, if_neg (by simp [h])]
    exact rounds_ended h peer self choices

/-- A peer that has nothing after the common block changes nothing. Otherwise the first 2000 blocks after it decide: if
the chain that ends with them has more work, `n` rounds lead to `2000 * n` blocks of the peer's chain after the common
one; if not, the first round ends the connection and the chain stays, whatever else the peer has. -/
theorem sync_rounds (h : Idle peer mine node) (htheirs : other.storage.load K = .ok theirs)
    (hshared : Shared K mine theirs) (hcompact : Compact theirs) {i : Nat} (hfork : forkPoint K mine theirs = some i)
    (self : UInt64) (choice : Node.Choice K × Node.Choice K) (choices : List (Node.Choice K × Node.Choice K)) :
    (i + 1 = theirs.length → Link.rounds peer self (choice :: choices) ⟨true, node, other⟩ = ⟨true, node, other⟩) ∧
      (i + 1 < theirs.length →
        if work mine < work (theirs.take (i + 1 + Node.maxHeaders)) then
          (Link.rounds peer self (choice :: choices) ⟨true, node, other⟩).connected = true ∧
          (Link.rounds peer self (choice :: choices) ⟨true, node, other⟩).node.storage =
            some (theirs.take (i + 1 + (choices.length + 1) * Node.maxHeaders))
        else (Link.rounds peer self (choice :: choices) ⟨true, node, other⟩).connected = false ∧
          (Link.rounds peer self (choice :: choices) ⟨true, node, other⟩).node.storage = some mine) := by
  have hchain : offeredChain K mine theirs = theirs.take (i + 1 + Node.maxHeaders) := by
    rw [offeredChain, hfork]
  constructor
  · intro hend
    refine h.rounds_same htheirs hshared hcompact self ?_ _
    rw [offered, hfork]
    simp [hend]
  · intro hlt
    have hne : offered K mine theirs ≠ [] := by
      rw [offered, hfork]
      refine List.ne_nil_of_length_pos ?_
      simp only [Node.maxHeaders, List.length_take, List.length_drop]
      omega
    have hfirst : Link.rounds peer self (choice :: choices) ⟨true, node, other⟩ =
        Link.rounds peer self choices (Link.round peer self ⟨true, node, other⟩ choice) := rfl
    rw [hfirst]
    split
    · rename_i hmore
      rw [← hchain] at hmore
      obtain ⟨next, hround, hnext⟩ := h.round_more choice self htheirs hshared hcompact hne hmore
      rw [hchain] at hnext
      obtain ⟨last, hrounds, hlast⟩ := Idle.rounds_take htheirs hshared hcompact self choices (Nat.add_pos_left (by omega) _) hnext
      rw [hround, hrounds, Nat.succ_mul, Nat.add_comm _ Node.maxHeaders, ← Nat.add_assoc]
      exact ⟨rfl, (load_ok.mp hlast.load).1⟩
    · rename_i hless
      rw [← hchain] at hless
      obtain ⟨hended, hstorage⟩ := h.round_less choice self htheirs hshared hcompact hne hless
      rw [rounds_ended hended]
      exact ⟨hended, hstorage⟩

end

/-! ## A fork that is left in one round -/

theorem compact_of_total {chain : List Block} (h : 16 + (blockList chain).length ≤ czrP2PMaxPayload) : Compact chain := by
  intro batch hb _
  have hsub := hb.sublist.map fun block => 4 + block.bytes.length
  have := hsub.sum_le_sum fun _ _ => Nat.zero_le _
  rw [blockList_length] at h ⊢
  omega

theorem sync_rounds_toy : (Link.rounds 1 2 [(toyChoice, toyChoice)] ⟨true, toyNode [toyGenesis, toyRival],
    toyNode [toyGenesis, toyFirst, toySecond]⟩).node.storage = some [toyGenesis, toyFirst, toySecond] := by
  have htheirs : (toyNode [toyGenesis, toyFirst, toySecond]).storage.load toyCrypto =
      .ok [toyGenesis, toyFirst, toySecond] := by decide +kernel
  have hshared : Shared toyCrypto [toyGenesis, toyRival] [toyGenesis, toyFirst, toySecond] :=
    toy_shared (by simp) (by unfold CollisionFree; decide +kernel) (by decide +kernel)
  have hfork : forkPoint toyCrypto [toyGenesis, toyRival] [toyGenesis, toyFirst, toySecond] = some 0 := by
    decide +kernel
  have hidle : Idle 1 [toyGenesis, toyRival] (toyNode [toyGenesis, toyRival]) := ⟨toyRival_loaded, rfl, rfl⟩
  have hsynced := (sync_rounds hidle htheirs hshared (compact_of_total (by decide +kernel)) hfork 2
    (toyChoice, toyChoice) []).2 (by decide)
  rw [if_pos (by decide +kernel)] at hsynced
  exact hsynced.2

end Caesar
