import Caesar.RelaySound
import Caesar.ReorgSound
import Caesar.CanonicalSound

/-!
# One exchange between two honest nodes

A node asks a peer for headers, then for the blocks it lacks, and takes them.
When the blocks extend its tip, or give a fork with more work, it ends with the
chain it was offered. A fork with no more work ends in a throw, although the
peer did nothing wrong.
-/

namespace Caesar

open Codec

/-- The turns of an exchange: each side reads what the other sent last. -/
structure Exchange (K : Crypto) where
  requested : Outcome K
  answered : Outcome K
  asked : Outcome K
  served : Outcome K
  settled : Outcome K

/-- `node` knows the other node as `peer`, and is known to it as `self`. -/
def exchange {K : Crypto} (choice otherChoice : Node.Choice K) (peer self : UInt64) (node other : Node K) :
    Exchange K :=
  let requested := node.requestHeaders
  let answered := other.readFrames otherChoice self requested.sent
  let asked := requested.node.readFrames choice peer answered.sent
  let served := answered.node.readFrames otherChoice self asked.sent
  let settled := asked.node.readFrames choice peer served.sent
  ⟨requested, answered, asked, served, settled⟩

def Exchange.Quiet {K : Crypto} (e : Exchange K) : Prop :=
  e.requested.result = .ok () ∧ e.answered.result = .ok () ∧ e.asked.result = .ok () ∧ e.served.result = .ok () ∧
    e.settled.result = .ok ()

/-- The responses with the offered blocks stay within the payload limit: one frame for each request when the blocks
extend `mine`, and otherwise the frames into which the peer divides them. -/
structure Fitting (K : Crypto) (session : P2PSyncSessionId) (mine theirs : List Block) : Prop where
  direct : forkPoint K mine theirs = some (mine.length - 1) → ∀ batch ∈ requests (offered K mine theirs),
    (blockList batch).length ≤ czrP2PMaxPayload
  fork : forkPoint K mine theirs ≠ some (mine.length - 1) → ∀ batch ∈ requests (offered K mine theirs),
    (∀ block ∈ batch, 24 + block.bytes.length ≤ czrP2PMaxPayload) ∧
      ∀ frame, .ok frame ∈ Node.syncFrames session batch [] → frame.payload.length ≤ czrP2PMaxPayload

section
variable {K : Crypto} {node other : Node K} {mine theirs : List Block}

/-! ## Reading blocks -/

section
variable (choice : Node.Choice K) (id : UInt64)

theorem Loadable.of_append {chain more : List Block} (h : Loadable K (chain ++ more)) (hne : chain ≠ []) :
    Loadable K chain := by
  obtain ⟨u, t, hr⟩ := h.replay
  obtain ⟨u', t', hr'⟩ := hr.take (List.length_pos_of_ne_nil hne)
  rw [List.take_left] at hr'
  refine ⟨?_, fun b hb => h.stored b (List.mem_append_left _ hb), candidate_iff.mpr ⟨u', t', hr'⟩⟩
  have := h.count
  rw [List.length_append] at this
  omega

theorem readFrames_blocks : ∀ {batches : List (List Block)} {node : Node K} {chain : List Block},
    node.storage.load K = .ok chain → Loadable K (chain ++ batches.flatten) →
    (∀ batch ∈ batches, (batch ≠ [] ∧ batch.length ≤ maxBatch) ∧
      ∀ block ∈ batch, block.bytes.length ≤ czrP2PMaxPayload) →
    node.readFrames choice id (batches.map blocksFrameOf) =
      ⟨.ok (), { node with storage := some (chain ++ batches.flatten) }, []⟩
  | [], node, chain, hload, _, _ => by
    rw [List.flatten_nil, List.append_nil, ← (load_ok.mp hload).1]
    rfl
  | batch :: batches, node, chain, hload, hall, hsize => by
    obtain ⟨u, t, hr⟩ := (load_ok.mp hload).2.replay
    rw [List.forall_mem_cons] at hsize
    rw [List.flatten_cons, ← List.append_assoc] at hall ⊢
    have hnext : Loadable K (chain ++ batch) := hall.of_append (by simp [hr.ne_nil])
    have hfirst : node.handleFrame choice id (blocksFrameOf batch) =
        ⟨.ok (), { node with storage := some (chain ++ batch) }, []⟩ := by
      show Outcome.silent (node.handleBlocks (blocksFrameOf batch).payload) = _
      rw [handleBlocks_eq hload hsize.1.1.1 hsize.1.1.2 hnext hsize.1.2]
      rfl
    have hload' : ({ node with storage := some (chain ++ batch) } : Node K).storage.load K = .ok (chain ++ batch) :=
      load_ok.mpr ⟨rfl, hnext⟩
    simp only [List.map_cons, Node.readFrames, hfirst, readFrames_blocks hload' hall hsize.2, List.append_nil]

theorem setPending_setPending (id : UInt64) (p q : Option PendingChainSync) :
    (node.setPending id p).setPending id q = node.setPending id q := by
  simp [Node.setPending]

theorem readFrames_parts {session : P2PSyncSessionId} {all : List Block} (hnd : (all.map (Block.hash K)).Nodup) :
    ∀ {parts : List (List Block)} {done : List Block} {node : Node K}, parts ≠ [] → all = done ++ parts.flatten →
      (∀ part ∈ parts, (part ≠ [] ∧ part.length ≤ maxBatch) ∧
        ∀ block ∈ part, block.Fits decodeLimit ∧ block.bytes.length ≤ czrP2PMaxPayload) →
      node.pendingChainSyncs id = some (progress session all done parts.flatten.length) →
      node.readFrames choice id (parts.map (syncBlocksFrameOf session)) =
        .silent ((node.setPending id (some (progress session all all 0))).completeSession choice.walk id
          (all.map Block.header) all)
  | [], _, _, hne, _, _, _ => absurd rfl hne
  | [part], done, node, _, hall, hpart, hpending => by
    obtain ⟨⟨hne, hlen⟩, hfits⟩ := hpart part (by simp)
    rw [List.flatten_singleton] at hall hpending
    rw [List.map_singleton, readFrames_singleton]
    show Outcome.silent (node.handleSyncBlocks choice.walk id (syncBlocksFrameOf session part).payload) = _
    rw [handleSyncBlocks_last hnd hall hne hlen hfits hpending]
  | part :: next :: parts, done, node, _, hall, hpart, hpending => by
    rw [List.forall_mem_cons] at hpart
    obtain ⟨⟨⟨hne, hlen⟩, hfits⟩, hparts⟩ := hpart
    have hrest : (next :: parts).flatten ≠ [] := by
      simp [(hparts next (by simp)).1.1]
    rw [List.flatten_cons, ← List.append_assoc] at hall
    rw [List.flatten_cons, List.length_append] at hpending
    have hfirst : node.handleFrame choice id (syncBlocksFrameOf session part) = ⟨.ok (),
        node.setPending id (some (progress session all (done ++ part) (next :: parts).flatten.length)), []⟩ := by
      show Outcome.silent (node.handleSyncBlocks choice.walk id (syncBlocksFrameOf session part).payload) = _
      rw [handleSyncBlocks_more hnd hall hne hlen hfits hrest hpending]
      rfl
    have hpending' : (node.setPending id (some (progress session all (done ++ part)
        (next :: parts).flatten.length))).pendingChainSyncs id =
        some (progress session all (done ++ part) (next :: parts).flatten.length) := by
      simp [Node.setPending]
    have hlater := readFrames_parts hnd (List.cons_ne_nil next parts) hall hparts hpending'
    rw [setPending_setPending] at hlater
    rw [List.map_cons, Node.readFrames, hfirst]
    dsimp only
    rw [hlater]
    rfl

theorem serve_parts (session : P2PSyncSessionId) (hload : other.storage.load K = .ok theirs) :
    ∀ {batches : List (List Block)}, (∀ batch ∈ batches, (batch ≠ [] ∧ batch.length ≤ maxBatch) ∧
      Serves K theirs batch ∧ (∀ block ∈ batch, block.Fits uint32Max ∧ 24 + block.bytes.length ≤ czrP2PMaxPayload) ∧
      ∀ frame, .ok frame ∈ Node.syncFrames session batch [] → frame.payload.length ≤ czrP2PMaxPayload) →
    ∃ parts : List (List Block),
      other.readFrames choice id (batches.map (getSyncBlocksFrame K session)) =
        ⟨.ok (), other, parts.map (syncBlocksFrameOf session)⟩ ∧
      parts.flatten = batches.flatten ∧ ∀ part ∈ parts, part ≠ [] ∧ part.length ≤ maxBatch
  | [], _ => ⟨[], rfl, rfl, by simp⟩
  | batch :: batches, h => by
    rw [List.forall_mem_cons] at h
    obtain ⟨⟨⟨hne, hlen⟩, hserve, hblocks, hsize⟩, hrest⟩ := h
    obtain ⟨parts, hframes, hflat, hmem⟩ := syncFrames_parts session batch hblocks hlen
    obtain ⟨later, hlater, hflat', hmem'⟩ := serve_parts session hload hrest
    have hfirst : other.handleFrame choice id (getSyncBlocksFrame K session batch) =
        ⟨.ok (), other, parts.map (syncBlocksFrameOf session)⟩ :=
      handleGetSyncBlocks_eq hload session hserve hne hlen hframes fun frame hf =>
        hsize frame (hframes ▸ List.mem_map_of_mem hf)
    refine ⟨parts ++ later, ?_, ?_, ?_⟩
    · simp only [List.map_cons, Node.readFrames, hfirst, hlater, List.map_append]
    · rw [List.flatten_append, hflat, hflat', List.flatten_cons]
    · intro part hp
      exact (List.mem_append.mp hp).elim (hmem part) (hmem' part)

end

/-! ## What the node is offered -/

theorem Replay.hashes_nodup {chain : List Block} {u : UTXOSet} {t : UInt64} (h : Replay K chain u t)
    (hcf : CollisionFree K (chain.flatMap (Block.strings K))) : (chain.map (Block.hash K)).Nodup := by
  refine List.nodup_iff_getElem?_ne_getElem?.mpr fun i j hij hj he => ?_
  rw [List.length_map] at hj
  have hi := List.getElem?_eq_getElem (Nat.lt_trans hij hj)
  have hj' := List.getElem?_eq_getElem hj
  rw [List.getElem?_map, List.getElem?_map, hi, hj', Option.map_some, Option.map_some, Option.some.injEq] at he
  have hindex := chainIndex_eq h hcf hi
  rw [he, chainIndex_eq h hcf hj', Option.some.injEq] at hindex
  omega

theorem Shared.left (h : Shared K mine theirs) : CollisionFree K (mine.flatMap (Block.strings K)) :=
  h.collisionFree.mono fun x hx => by rw [List.flatMap_append]; exact List.mem_append_left _ hx

theorem Shared.right (h : Shared K mine theirs) : CollisionFree K (theirs.flatMap (Block.strings K)) :=
  h.collisionFree.mono fun x hx => by rw [List.flatMap_append]; exact List.mem_append_right _ hx

/-- Blocks on offer: where they leave `mine`, and how they continue it. -/
structure Offer (K : Crypto) (mine theirs : List Block) (i : Nat) (ancestor : Block) : Prop where
  fork : forkPoint K mine theirs = some i
  here : mine[i]? = some ancestor
  agree : mine.take (i + 1) = theirs.take (i + 1)
  linked : Linked K ancestor (offered K mine theirs)

theorem Shared.offer (h : Shared K mine theirs) (hm : Loadable K mine) (ht : Loadable K theirs)
    (hne : offered K mine theirs ≠ []) : ∃ i ancestor, Offer K mine theirs i ancestor := by
  obtain ⟨u, t, hr⟩ := hm.replay
  obtain ⟨u', t', hr'⟩ := ht.replay
  cases hi : forkPoint K mine theirs with
  | none => exact absurd (by rw [offered, hi]) hne
  | some i =>
    obtain ⟨ancestor, hhere, hthere, hagree⟩ := h.forkPoint_some hr hr' hi
    refine ⟨i, ancestor, hi, hhere, hagree, ?_⟩
    rw [offered, hi]
    exact (hr'.linked rfl hthere).take _

variable {i : Nat} {ancestor : Block}

theorem Offer.chain_eq (h : Offer K mine theirs i ancestor) :
    offeredChain K mine theirs = mine.take (i + 1) ++ offered K mine theirs := by
  rw [offeredChain_eq h.fork, h.agree]

theorem Offer.loadable (h : Offer K mine theirs i ancestor) (ht : Loadable K theirs) :
    Loadable K (offeredChain K mine theirs) := by
  obtain ⟨u, t, hr⟩ := ht.replay
  have hpos := List.length_pos_of_ne_nil hr.ne_nil
  rw [offeredChain, h.fork]
  rw [← List.take_append_drop (i + 1 + Node.maxHeaders) theirs] at ht
  refine ht.of_append fun he => ?_
  have := congrArg List.length he
  rw [List.length_take, List.length_nil] at this
  omega

theorem Offer.head (h : Offer K mine theirs i ancestor) : (offeredChain K mine theirs).head? = mine.head? := by
  have hlt := (List.getElem?_eq_some_iff.mp h.here).1
  cases mine with
  | nil => simp at hlt
  | cons genesis rest => rw [h.chain_eq]; rfl

theorem Offer.direct_iff (h : Offer K mine theirs i ancestor) {u : UTXOSet} {t : UInt64} (hr : Replay K mine u t)
    (hcf : CollisionFree K (mine.flatMap (Block.strings K))) {tip : Block} (htip : mine.getLast? = some tip) :
    ancestor.hash K = tip.hash K ↔ i = mine.length - 1 := by
  rw [List.getLast?_eq_getElem?] at htip
  refine ⟨?_, ?_⟩
  · intro he
    have hindex := chainIndex_eq hr hcf h.here
    rw [he, chainIndex_eq hr hcf htip, Option.some.injEq] at hindex
    exact hindex.symm
  · intro he
    have hhere := h.here
    rw [he, htip, Option.some.injEq] at hhere
    rw [hhere]

theorem Offer.received (h : Offer K mine theirs i ancestor) (hmine : node.storage.load K = .ok mine)
    (ht : Loadable K theirs) (hshared : Shared K mine theirs) (hne : offered K mine theirs ≠ []) :
    node.receiveHeaders (Node.headersFrame ((offered K mine theirs).map Block.header)).payload =
      .ok (some ((offered K mine theirs).map Block.header, decide (i = mine.length - 1))) := by
  obtain ⟨u, t, hr⟩ := (load_ok.mp hmine).2.replay
  obtain ⟨u', t', hr'⟩ := ht.replay
  obtain ⟨tip, htip⟩ : ∃ tip, mine.getLast? = some tip := ⟨_, List.getLast?_eq_some_getLast hr.ne_nil⟩
  have hdirect := h.direct_iff hr hshared.left htip
  have hsame : ancestor.hash K = tip.hash K → ancestor = tip := by
    intro he
    have hhere := h.here
    rw [hdirect.mp he, ← List.getLast?_eq_getElem?, htip, Option.some.injEq] at hhere
    exact hhere.symm
  have hlen := offered_length (K := K) mine theirs
  have hlinked := h.linked
  have hann : ∀ block ∈ offered K mine theirs, block.header.Announced K := fun b hb => hr'.announced (offered_sub hb)
  have hdecide : decide (ancestor.hash K = tip.hash K) = decide (i = mine.length - 1) := decide_eq_decide.mpr hdirect
  rw [← hdecide]
  cases hoff : offered K mine theirs with
  | nil => exact absurd hoff hne
  | cons first rest =>
    rw [hoff] at hlen hlinked hann
    exact receiveHeaders_linked hmine hann hlen hlinked (List.mem_of_getElem? h.here) htip hsame

theorem Offer.assembled (h : Offer K mine theirs i ancestor) (hmine : node.storage.load K = .ok mine)
    (hshared : Shared K mine theirs) (hne : offered K mine theirs ≠ []) :
    node.assembleSession ((offered K mine theirs).map Block.header) (offered K mine theirs) =
      .ok (offeredChain K mine theirs) := by
  obtain ⟨hstore, hl⟩ := load_ok.mp hmine
  obtain ⟨u, t, hr⟩ := hl.replay
  have hfind := chainIndex_eq hr hshared.left h.here
  have hloop := assembleLoop_linked h.linked
  have hlinked := h.linked
  have hchain := h.chain_eq
  rw [Node.assembleSession, if_neg (by simp [hstore])]
  refine bind_ok.mpr ⟨mine, hmine, ?_⟩
  cases hoff : offered K mine theirs with
  | nil => exact absurd hoff hne
  | cons first rest =>
    rw [hoff] at hloop hchain hlinked
    have hassemble : assembleCandidateChain K mine ((first :: rest).map Block.header) (first :: rest) =
        some (offeredChain K mine theirs) := by
      unfold assembleCandidateChain
      rw [if_neg (by simp [hr.ne_nil]), List.map_cons, List.head?_cons]
      dsimp only
      rw [if_neg (by simp), hlinked.1]
      simp only [Node.chainIndex] at hfind
      rw [hfind]
      dsimp only
      rw [h.here]
      dsimp only
      rw [← List.map_cons, hloop, hchain]
      rfl
    rw [hassemble]
    rfl

/-! ## The exchange -/

variable {choice otherChoice : Node.Choice K} {peer self : UInt64}

theorem exchange_eq (hmine : node.storage.load K = .ok mine) (htheirs : other.storage.load K = .ok theirs)
    {asked served : Outcome K}
    (hasked : node.handleHeaders peer choice.sessionId
      (Node.headersFrame ((offered K mine theirs).map Block.header)).payload = asked)
    (hserved : other.readFrames otherChoice self asked.sent = served) :
    exchange choice otherChoice peer self node other =
      ⟨⟨.ok (), node, [⟨.getHeaders, writeHashes (Node.headerLocators K mine)⟩]⟩,
        ⟨.ok (), other, [Node.headersFrame ((offered K mine theirs).map Block.header)]⟩, asked, served,
        asked.node.readFrames choice peer served.sent⟩ := by
  obtain ⟨u, t, hr⟩ := (load_ok.mp hmine).2.replay
  have hanswer : other.readFrames otherChoice self [⟨.getHeaders, writeHashes (Node.headerLocators K mine)⟩] =
      ⟨.ok (), other, [Node.headersFrame ((offered K mine theirs).map Block.header)]⟩ := by
    rw [readFrames_singleton, ← headersAfter_eq]
    exact handleGetHeaders_eq htheirs (headerLocators_ne_nil hr.ne_nil) (headerLocators_length mine)
  have hask : node.readFrames choice peer [Node.headersFrame ((offered K mine theirs).map Block.header)] = asked := by
    rw [readFrames_singleton]
    exact hasked
  simp only [exchange, requestHeaders_eq hmine, hanswer, hask, hserved]

theorem exchange_ends (hmine : node.storage.load K = .ok mine) (htheirs : other.storage.load K = .ok theirs)
    (hasked : node.handleHeaders peer choice.sessionId
      (Node.headersFrame ((offered K mine theirs).map Block.header)).payload = ⟨.ok (), node, []⟩) :
    (exchange choice otherChoice peer self node other).Quiet := by
  have hserved : other.readFrames otherChoice self [] = ⟨.ok (), other, []⟩ := rfl
  rw [exchange_eq hmine htheirs hasked hserved]
  exact ⟨rfl, rfl, rfl, rfl, rfl⟩

/-- Blocks on top of the tip are appended. -/
theorem exchange_extend (h : Offer K mine theirs i ancestor) (hmine : node.storage.load K = .ok mine)
    (htheirs : other.storage.load K = .ok theirs) (hshared : Shared K mine theirs)
    (hfit : Fitting K choice.sessionId mine theirs) (hne : offered K mine theirs ≠ []) (hi : i = mine.length - 1) :
    exchange choice otherChoice peer self node other =
      ⟨⟨.ok (), node, [⟨.getHeaders, writeHashes (Node.headerLocators K mine)⟩]⟩,
        ⟨.ok (), other, [Node.headersFrame ((offered K mine theirs).map Block.header)]⟩,
        ⟨.ok (), node, (requests (offered K mine theirs)).map (getBlocksFrame K)⟩,
        ⟨.ok (), other, (requests (offered K mine theirs)).map blocksFrameOf⟩,
        ⟨.ok (), { node with storage := some (offeredChain K mine theirs) }, []⟩⟩ := by
  obtain ⟨-, hl⟩ := load_ok.mp hmine
  obtain ⟨-, hl'⟩ := load_ok.mp htheirs
  obtain ⟨u', t', hr'⟩ := hl'.replay
  have hlt := (List.getElem?_eq_some_iff.mp h.here).1
  have hreceived := h.received hmine hl' hshared hne
  rw [decide_eq_true hi] at hreceived
  have hfits := hfit.direct (hi ▸ h.fork)
  have hserve : ∀ batch ∈ requests (offered K mine theirs),
      other.handleFrame otherChoice self (getBlocksFrame K batch) = ⟨.ok (), other, [blocksFrameOf batch]⟩ := by
    intro batch hb
    obtain ⟨hbne, hblen⟩ := requests_mem hb
    refine handleGetBlocks_eq htheirs (serves_of hr' hshared.right fun b hbb => offered_sub (mem_of_request hb hbb)) hbne
      hblen (fun b hbb => ?_) (hfits batch hb)
    exact (hl'.stored b (offered_sub (mem_of_request hb hbb))).1.mono decodeLimit_le
  have hchain : offeredChain K mine theirs = mine ++ (requests (offered K mine theirs)).flatten := by
    rw [h.chain_eq, requests_flatten, List.take_of_length_le (by omega)]
  have hread := readFrames_blocks choice peer hmine (hchain ▸ h.loadable hl') fun batch hb =>
    ⟨requests_mem hb, fun b hbb => by
      have h₁ := length_le_blockList hbb
      have h₂ := hfits batch hb
      omega⟩
  rw [exchange_eq hmine htheirs (handleHeaders_direct hreceived) (readFrames_replies hserve)]
  dsimp only
  rw [← List.map_eq_flatMap, hread, hchain]

theorem exchange_direct (h : Offer K mine theirs i ancestor) (hmine : node.storage.load K = .ok mine)
    (htheirs : other.storage.load K = .ok theirs) (hshared : Shared K mine theirs)
    (hfit : Fitting K choice.sessionId mine theirs) (hne : offered K mine theirs ≠ []) (hi : i = mine.length - 1) :
    (exchange choice otherChoice peer self node other).Quiet ∧
      (exchange choice otherChoice peer self node other).settled.node.storage = some (offeredChain K mine theirs) := by
  rw [exchange_extend h hmine htheirs hshared hfit hne hi]
  exact ⟨⟨rfl, rfl, rfl, rfl, rfl⟩, rfl⟩

theorem completeSession_result {walk : Walk K} {id : UInt64} {headers : List BlockHeader} {blocks candidate : List Block}
    (hassembled : node.assembleSession headers blocks = .ok candidate) :
    node.completeSession walk id headers blocks =
      (do
        let accepted ← (node.replaceChain walk candidate).1
        if !accepted then fail "sync candidate was rejected" else pure (),
       (node.replaceChain walk candidate).2.setPending id none) := by
  rw [Node.completeSession, hassembled]

theorem Offer.hashes_nodup (h : Offer K mine theirs i ancestor) (ht : Loadable K theirs) (hshared : Shared K mine theirs) :
    ((offered K mine theirs).map (Block.hash K)).Nodup := by
  obtain ⟨u, t, hr⟩ := ht.replay
  have hsub : (offered K mine theirs).Sublist theirs := by
    rw [offered, h.fork]
    exact (List.take_sublist ..).trans (List.drop_sublist ..)
  exact (hsub.map (Block.hash K)).nodup (hr.hashes_nodup hshared.right)

/-- The peer divides the offered blocks of a fork into parts, none of which is too large for the node. -/
theorem Offer.served (h : Offer K mine theirs i ancestor) (htheirs : other.storage.load K = .ok theirs)
    (hshared : Shared K mine theirs) {session : P2PSyncSessionId} (hfit : Fitting K session mine theirs)
    (hi : i ≠ mine.length - 1) : ∃ parts : List (List Block),
      other.readFrames otherChoice self ((requests (offered K mine theirs)).map (getSyncBlocksFrame K session)) =
        ⟨.ok (), other, parts.map (syncBlocksFrameOf session)⟩ ∧
      parts.flatten = offered K mine theirs ∧ ∀ part ∈ parts, (part ≠ [] ∧ part.length ≤ maxBatch) ∧
        ∀ b ∈ part, b.Fits decodeLimit ∧ b.bytes.length ≤ czrP2PMaxPayload := by
  obtain ⟨-, hl⟩ := load_ok.mp htheirs
  obtain ⟨u, t, hr⟩ := hl.replay
  have hfits := hfit.fork fun he => hi (Option.some.inj (h.fork.symm.trans he))
  have hstored : ∀ b ∈ offered K mine theirs, b.Fits decodeLimit := fun b hb => (hl.stored b (offered_sub hb)).1
  obtain ⟨parts, hserved, hflat, hparts⟩ := serve_parts otherChoice self session htheirs
    fun batch hb =>
      ⟨requests_mem hb, serves_of hr hshared.right fun b hbb => offered_sub (mem_of_request hb hbb),
        fun b hbb => ⟨(hstored b (mem_of_request hb hbb)).mono decodeLimit_le, (hfits batch hb).1 b hbb⟩,
        (hfits batch hb).2⟩
  rw [requests_flatten] at hflat
  refine ⟨parts, hserved, hflat, fun part hp => ⟨hparts part hp, fun b hb => ?_⟩⟩
  have hmem : b ∈ offered K mine theirs := hflat ▸ List.mem_flatten.mpr ⟨part, hp, hb⟩
  obtain ⟨batch, hbatch, hbb⟩ := List.mem_flatten.mp ((requests_flatten (offered K mine theirs)).symm ▸ hmem)
  have hsize := (hfits batch hbatch).1 b hbb
  exact ⟨hstored b hmem, by omega⟩

/-- The chain that a session of a fork gives is accepted exactly when it has more work. -/
theorem Offer.completed (h : Offer K mine theirs i ancestor) (hmine : node.storage.load K = .ok mine)
    (ht : Loadable K theirs) (hshared : Shared K mine theirs) (hrun : node.running = true) (hne : offered K mine theirs ≠ [])
    (walk : Walk K) (pending : Option PendingChainSync) :
    (node.setPending peer pending).completeSession walk peer ((offered K mine theirs).map Block.header)
        (offered K mine theirs) =
      if work mine < work (offeredChain K mine theirs) then (.ok (), Node.setPending { node with
          storage := some (offeredChain K mine theirs)
          mempool := (revalidateMempoolAfterReorg K walk node.mempool (offeredChain K mine theirs)).2 } peer none)
        else (fail "sync candidate was rejected", node.setPending peer none) := by
  have hmine' : (node.setPending peer pending).storage.load K = .ok mine := hmine
  have hrun' : (node.setPending peer pending).running = true := hrun
  have hhead : (offeredChain K mine theirs).head?.map (Block.hash K) = mine.head?.map (Block.hash K) := by rw [h.head]
  rw [completeSession_result (h.assembled hmine' hshared hne)]
  by_cases hw : work mine < work (offeredChain K mine theirs)
  · rw [replaceChain_more hrun' hmine' (h.loadable ht) hhead hw, if_pos hw]
    simp [Node.setPending, bind, Except.bind, pure, Except.pure]
  · rw [replaceChain_less hrun' hmine' (h.loadable ht) hhead hw, if_neg hw]
    simp [Node.setPending, bind, Except.bind]

/-- The session of a fork is completed, and the chain it gives is accepted exactly when it has more work. -/
theorem exchange_replace (otherChoice : Node.Choice K) (self : UInt64) (h : Offer K mine theirs i ancestor)
    (hmine : node.storage.load K = .ok mine) (htheirs : other.storage.load K = .ok theirs) (hshared : Shared K mine theirs) (hrun : node.running = true)
    (hfit : Fitting K choice.sessionId mine theirs) (hne : offered K mine theirs ≠ []) (hi : i ≠ mine.length - 1)
    (hpending : node.pendingChainSyncs peer = none) : ∃ requested answered opened asked served,
    exchange choice otherChoice peer self node other =
      ⟨⟨.ok (), node, requested⟩, ⟨.ok (), other, answered⟩, ⟨.ok (), opened, asked⟩, ⟨.ok (), other, served⟩,
        if work mine < work (offeredChain K mine theirs) then ⟨.ok (), Node.setPending { node with
            storage := some (offeredChain K mine theirs)
            mempool := (revalidateMempoolAfterReorg K choice.walk node.mempool (offeredChain K mine theirs)).2 } peer none, []⟩
          else ⟨fail "sync candidate was rejected", node.setPending peer none, []⟩⟩ := by
  obtain ⟨-, hl'⟩ := load_ok.mp htheirs
  have hreceived := h.received hmine hl' hshared hne
  rw [decide_eq_false hi] at hreceived
  obtain ⟨parts, hserved, hflat, hpart⟩ := h.served htheirs hshared hfit hi
  have hpne : parts ≠ [] := by
    intro he
    rw [he] at hflat
    exact hne hflat.symm
  -- the node puts the parts together again
  have hopened : (node.setPending peer (some ⟨choice.sessionId, (offered K mine theirs).map Block.header,
      (offered K mine theirs).map fun _ => none⟩)).pendingChainSyncs peer =
      some (progress choice.sessionId (offered K mine theirs) [] parts.flatten.length) := by
    simp [Node.setPending, progress, hflat, List.map_const']
  have hsettled := readFrames_parts choice peer (h.hashes_nodup hl' hshared) hpne (by rw [hflat]; rfl) hpart hopened
  rw [setPending_setPending, h.completed hmine hl' hshared hrun hne] at hsettled
  have heq := exchange_eq hmine htheirs (handleHeaders_fork hreceived hpending) hserved
  dsimp only at heq
  refine ⟨_, _, _, _, _, heq.trans (congrArg _ (hsettled.trans ?_))⟩
  split
  · rfl
  · rfl

theorem exchange_fork (h : Offer K mine theirs i ancestor) (hmine : node.storage.load K = .ok mine)
    (htheirs : other.storage.load K = .ok theirs) (hshared : Shared K mine theirs) (hrun : node.running = true)
    (hfit : Fitting K choice.sessionId mine theirs) (hne : offered K mine theirs ≠ []) (hi : i ≠ mine.length - 1)
    (hpending : node.pendingChainSyncs peer = none) :
    ((exchange choice otherChoice peer self node other).Quiet ↔ work mine < work (offeredChain K mine theirs)) ∧
      (work mine < work (offeredChain K mine theirs) →
        (exchange choice otherChoice peer self node other).settled.node.storage = some (offeredChain K mine theirs)) := by
  obtain ⟨_, _, _, _, _, heq⟩ := exchange_replace otherChoice self h hmine htheirs hshared hrun hfit hne hi hpending
  rw [heq]
  by_cases hw : work mine < work (offeredChain K mine theirs)
  · rw [if_pos hw]
    exact ⟨⟨fun _ => hw, fun _ => ⟨rfl, rfl, rfl, rfl, rfl⟩⟩, fun _ => rfl⟩
  · rw [if_neg hw]
    refine ⟨⟨fun hq => ?_, fun hw' => absurd hw' hw⟩, fun hw' => absurd hw' hw⟩
    exact absurd hq.2.2.2.2 fail_ne_ok

theorem Offer.more_iff (h : Offer K mine theirs i ancestor) (hm : Loadable K mine) (ht : Loadable K theirs) :
    hasMoreWork (offeredChain K mine theirs) mine = .ok true ↔ work mine < work (offeredChain K mine theirs) := by
  obtain ⟨u, t, hr⟩ := hm.replay
  obtain ⟨u', t', hr'⟩ := (h.loadable ht).replay
  rw [hasMoreWork_eq hr' hr, Except.ok.injEq, decide_eq_true_iff]

/-- With frames within the limit, no handler of the exchange throws exactly when nothing is offered, a session with the
peer is already open, or the offered chain has more work. -/
theorem exchange_quiet_iff (hmine : node.storage.load K = .ok mine) (htheirs : other.storage.load K = .ok theirs)
    (hshared : Shared K mine theirs) (hrun : node.running = true) (hfit : Fitting K choice.sessionId mine theirs) :
    (exchange choice otherChoice peer self node other).Quiet ↔ offered K mine theirs = [] ∨
      (node.pendingChainSyncs peer).isSome = true ∨ hasMoreWork (offeredChain K mine theirs) mine = .ok true := by
  obtain ⟨-, hl⟩ := load_ok.mp hmine
  obtain ⟨-, hl'⟩ := load_ok.mp htheirs
  by_cases hne : offered K mine theirs = []
  · refine ⟨fun _ => Or.inl hne, fun _ => exchange_ends hmine htheirs ?_⟩
    rw [hne]
    exact handleHeaders_none receiveHeaders_nil
  · obtain ⟨i, ancestor, h⟩ := hshared.offer hl hl' hne
    rw [h.more_iff hl hl']
    by_cases hi : i = mine.length - 1
    · have hlt := (List.getElem?_eq_some_iff.mp h.here).1
      have hmore : work mine < work (offeredChain K mine theirs) := by
        have := work_pos hne
        rw [h.chain_eq, List.take_of_length_le (by omega), work_append]
        omega
      exact ⟨fun _ => Or.inr (Or.inr hmore), fun _ => (exchange_direct h hmine htheirs hshared hfit hne hi).1⟩
    · cases hpending : node.pendingChainSyncs peer with
      | some pending =>
        have hreceived := h.received hmine hl' hshared hne
        rw [decide_eq_false hi] at hreceived
        exact ⟨fun _ => Or.inr (Or.inl rfl),
          fun _ => exchange_ends hmine htheirs (handleHeaders_pending hreceived (by rw [hpending]; rfl))⟩
      | none =>
        rw [(exchange_fork h hmine htheirs hshared hrun hfit hne hi hpending).1]
        simp [hne]

/-! ## One frame for each request -/

/-- Every request is answered with one frame. -/
def OneFrame (K : Crypto) (session : P2PSyncSessionId) (mine theirs : List Block) : Prop :=
  ∀ batch ∈ requests (offered K mine theirs),
    (if forkPoint K mine theirs = some (mine.length - 1) then blocksFrameOf batch
      else syncBlocksFrameOf session batch).payload.length ≤ czrP2PMaxPayload

instance (session : P2PSyncSessionId) (mine theirs : List Block) : Decidable (OneFrame K session mine theirs) :=
  List.decidableBAll _ _

theorem blockList_part {parts : List (List Block)} {part : List Block} (h : part ∈ parts) :
    (blockList part).length ≤ (blockList parts.flatten).length := by
  have hsub := (List.sublist_flatten_of_mem h).map fun block => 4 + block.bytes.length
  have := hsub.sum_le_sum fun _ _ => Nat.zero_le _
  rw [blockList_length, blockList_length]
  omega

theorem syncFrameOf_length (session : P2PSyncSessionId) (part : List Block) :
    (syncBlocksFrameOf session part).payload.length = 16 + (blockList part).length := by
  rw [syncBlocksFrameOf, List.length_append, writeSyncSessionId_length]

theorem OneFrame.fitting {session : P2PSyncSessionId} (h : OneFrame K session mine theirs) (ht : Loadable K theirs) :
    Fitting K session mine theirs := by
  refine ⟨fun hd batch hb => ?_, fun hf batch hb => ?_⟩
  · have := h batch hb
    rw [if_pos hd] at this
    exact this
  · have hsize := h batch hb
    rw [if_neg hf, syncFrameOf_length] at hsize
    have hsmall : ∀ block ∈ batch, 24 + block.bytes.length ≤ czrP2PMaxPayload := by
      intro block hbb
      have := length_le_blockList hbb
      omega
    refine ⟨hsmall, fun frame hframe => ?_⟩
    have hfits : ∀ block ∈ batch, block.Fits uint32Max ∧ 24 + block.bytes.length ≤ czrP2PMaxPayload := fun block hbb =>
      ⟨(ht.stored block (offered_sub (mem_of_request hb hbb))).1.mono decodeLimit_le, hsmall block hbb⟩
    obtain ⟨parts, hparts, hflat, -⟩ := syncFrames_parts session batch hfits (requests_mem hb).2
    rw [hparts, List.map_map] at hframe
    obtain ⟨part, hp, he⟩ := List.mem_map.mp hframe
    obtain rfl := Except.ok.inj he
    have := blockList_part hp
    rw [hflat] at this
    rw [syncFrameOf_length]
    omega

/-- A peer whose chain has more work, and at most 2000 blocks after the first locator it knows: the node ends with
its chain. -/
theorem exchange_converges (hmine : node.storage.load K = .ok mine) (htheirs : other.storage.load K = .ok theirs)
    (hshared : Shared K mine theirs) (hrun : node.running = true) (hpending : node.pendingChainSyncs peer = none)
    (hmore : hasMoreWork theirs mine = .ok true) {i : Nat} (hfork : forkPoint K mine theirs = some i)
    (hnear : theirs.length ≤ i + 1 + 2000) (hfit : OneFrame K choice.sessionId mine theirs) :
    (exchange choice otherChoice peer self node other).settled.node.storage = some theirs := by
  obtain ⟨-, hl⟩ := load_ok.mp hmine
  obtain ⟨-, hl'⟩ := load_ok.mp htheirs
  obtain ⟨u, t, hr⟩ := hl.replay
  obtain ⟨u', t', hr'⟩ := hl'.replay
  have hchain : offeredChain K mine theirs = theirs := by
    rw [offeredChain, hfork]
    exact List.take_of_length_le hnear
  have hwork : work mine < work theirs := by
    rw [hasMoreWork_eq hr' hr, Except.ok.injEq] at hmore
    exact of_decide_eq_true hmore
  have hne : offered K mine theirs ≠ [] := by
    -- else `theirs` would be the beginning of `mine`
    intro he
    obtain ⟨-, -, -, hagree⟩ := hshared.forkPoint_some hr hr' hfork
    have hprefix : theirs = mine.take (i + 1) := by
      rw [hagree, ← List.append_nil (theirs.take (i + 1)), ← he, ← offeredChain_eq hfork, hchain]
    have hsplit := work_append (mine.take (i + 1)) (mine.drop (i + 1))
    rw [List.take_append_drop, ← hprefix] at hsplit
    omega
  obtain ⟨j, ancestor, h⟩ := hshared.offer hl hl' hne
  have hsettled : (exchange choice otherChoice peer self node other).settled.node.storage =
      some (offeredChain K mine theirs) := by
    by_cases hj : j = mine.length - 1
    · exact (exchange_direct h hmine htheirs hshared (hfit.fitting hl') hne hj).2
    · exact (exchange_fork h hmine htheirs hshared hrun (hfit.fitting hl') hne hj hpending).2 (hchain.symm ▸ hwork)
  rw [hsettled, hchain]

end

/-! ## Toy exchanges -/

def toyChoice : Node.Choice toyCrypto := ⟨⟨1, 2⟩, toyWalk, fun _ => .ok []⟩

def toyRival : Block := toyNext toyGenesis [toyCoinbase 3]

theorem toy_shared {mine theirs : List Block} (hg : mine.head? = theirs.head?)
    (hcf : CollisionFree toyCrypto ((mine ++ theirs).flatMap (Block.strings toyCrypto)))
    (hac : ∀ block ∈ mine ++ theirs, ∀ a ∈ block.transactions, ∀ b ∈ block.transactions,
      a.SpendsFrom toyCrypto b → toyRank b < toyRank a) : Shared toyCrypto mine theirs :=
  ⟨hg, hcf, fun block hb => acyclic_of_rank toyCrypto toyRank (hac block hb)⟩

theorem toyRival_loaded : (toyNode [toyGenesis, toyRival]).storage.load toyCrypto = .ok [toyGenesis, toyRival] := by
  decide +kernel

theorem exchange_quiet_toy : (exchange toyChoice toyChoice 1 2 (toyNode [toyGenesis]) (toyNode [toyGenesis, toyFirst])).Quiet := by
  have hshared : Shared toyCrypto [toyGenesis] [toyGenesis, toyFirst] :=
    toy_shared (by simp) (by unfold CollisionFree; decide +kernel) (by decide +kernel)
  have hframe : OneFrame toyCrypto toyChoice.sessionId [toyGenesis] [toyGenesis, toyFirst] := by decide +kernel
  exact (exchange_quiet_iff toyGenesis_loaded toyPair_loaded hshared rfl
    (hframe.fitting (load_ok.mp toyPair_loaded).2)).mpr
    (Or.inr (Or.inr (by decide +kernel)))

theorem exchange_converges_toy : (exchange toyChoice toyChoice 1 2 (toyNode [toyGenesis, toyRival])
    (toyNode [toyGenesis, toyFirst, toySecond])).settled.node.storage = some [toyGenesis, toyFirst, toySecond] := by
  have htheirs : (toyNode [toyGenesis, toyFirst, toySecond]).storage.load toyCrypto =
      .ok [toyGenesis, toyFirst, toySecond] := by decide +kernel
  have hshared : Shared toyCrypto [toyGenesis, toyRival] [toyGenesis, toyFirst, toySecond] :=
    toy_shared (by simp) (by unfold CollisionFree; decide +kernel) (by decide +kernel)
  have hfork : forkPoint toyCrypto [toyGenesis, toyRival] [toyGenesis, toyFirst, toySecond] = some 0 := by
    decide +kernel
  exact exchange_converges toyRival_loaded htheirs hshared rfl rfl (by decide +kernel) hfork (by decide) (by decide +kernel)

/-! ## An honest peer on a fork with no more work -/

theorem rival_disconnected : ¬ ∀ (K : Crypto) (choice otherChoice : Node.Choice K) (peer self : UInt64)
    (node other : Node K) (mine theirs : List Block), node.storage.load K = .ok mine →
    other.storage.load K = .ok theirs → Shared K mine theirs → node.running = true →
    Fitting K choice.sessionId mine theirs → (exchange choice otherChoice peer self node other).Quiet := by
  intro h
  have hshared : Shared toyCrypto [toyGenesis, toyFirst] [toyGenesis, toyRival] :=
    toy_shared (by simp) (by unfold CollisionFree; decide +kernel) (by decide +kernel)
  have hframe : OneFrame toyCrypto toyChoice.sessionId [toyGenesis, toyFirst] [toyGenesis, toyRival] := by
    decide +kernel
  have hquiet := h toyCrypto toyChoice toyChoice 1 2 (toyNode [toyGenesis, toyFirst]) (toyNode [toyGenesis, toyRival]) _ _
    toyPair_loaded toyRival_loaded hshared rfl (hframe.fitting (load_ok.mp toyRival_loaded).2)
  have hthrown : (exchange toyChoice toyChoice 1 2 (toyNode [toyGenesis, toyFirst])
      (toyNode [toyGenesis, toyRival])).settled.result = fail "sync candidate was rejected" := by decide +kernel
  exact fail_ne_ok (hthrown.symm.trans hquiet.2.2.2.2)

end Caesar
