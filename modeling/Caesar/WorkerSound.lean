import Caesar.CanonicalSound
import Caesar.AddressSound
import Caesar.PayoutSound
import Caesar.PoolSound
import Caesar.PoolStateSound

/-!
# Workers across restarts

The addresses and names of workers come from the requests and go to the state
file as they are. While none of them has a bar or a newline, every state that
the pool reaches is read back from its file; with a bar in it an address writes
the fields behind it as well.
-/

namespace Caesar

open Codec Text

/-- A text that the state file keeps as it is. -/
def PlainText (text : Bytes) : Prop := 124 ∉ text ∧ newline ∉ text

/-! ## Texts of the server -/

theorem plain_hashToHex (hash : Hash256) : PlainText (hashToHex hash) :=
  ⟨not_mem_hex _ (by decide), not_mem_hex _ (by decide)⟩

theorem PlainText.append {a b : Bytes} (ha : PlainText a) (hb : PlainText b) : PlainText (a ++ b) :=
  ⟨by simp [ha.1, hb.1], by simp [ha.2, hb.2]⟩

theorem plain_ownerAddress (K : Crypto) (walletKey : Option Bytes) : PlainText (PoolWorld.ownerAddress K walletKey) := by
  cases walletKey with
  | none => exact ⟨List.not_mem_nil, List.not_mem_nil⟩
  | some key =>
    have hcz : PlainText (asciiBytes ['C', 'Z', '1']) := ⟨by decide, by decide⟩
    have hcheck := plain_hashToHex (K.sha256 (hashToHex (K.sha256 (asciiBytes ['C', 'Z', '1'] ++
      hashToHex (K.sha256 (canonicalizePublicKey key))))))
    exact (hcz.append (plain_hashToHex _)).append
      ⟨fun hm => hcheck.1 (List.mem_of_mem_take hm), fun hm => hcheck.2 (List.mem_of_mem_take hm)⟩

/-! ## Tidy states -/

/-- The workers stand under their addresses, and no text of theirs has a bar or a newline. -/
def TidyWorkers (workers : OrdMap Bytes PoolWorkerInfo) : Prop :=
  ∀ kv ∈ workers.entries, kv.1 = kv.2.address ∧ PlainText kv.2.address ∧ PlainText kv.2.workerName

namespace TidyWorkers

variable {workers : OrdMap Bytes PoolWorkerInfo} {addr : Bytes}

theorem insert {w : PoolWorkerInfo} (h : TidyWorkers workers) (ha : w.address = addr) (haddr : PlainText addr)
    (hname : PlainText w.workerName) : TidyWorkers (workers.insert addr w) := by
  intro kv hkv
  rcases OrdMap.mem_insert hkv with rfl | hkv
  · exact ⟨ha.symm, ha ▸ haddr, hname⟩
  · exact h kv hkv

theorem workerAt (h : TidyWorkers workers) (addr : Bytes) :
    ((PoolServer.workerAt workers addr).address = addr ∨ (PoolServer.workerAt workers addr).address = []) ∧
      PlainText (PoolServer.workerAt workers addr).workerName := by
  rw [PoolServer.workerAt]
  cases hfind : workers.find? addr with
  | none => exact ⟨Or.inr rfl, List.not_mem_nil, List.not_mem_nil⟩
  | some w =>
    obtain ⟨hk, -, hn⟩ := h (addr, w) (OrdMap.mem_entries.mpr hfind)
    exact ⟨Or.inl hk.symm, hn⟩

theorem oneShare_name {w : PoolWorkerInfo} {name : Bytes} {now : UInt64} (hname : PlainText name) (h : PlainText w.workerName) :
    PlainText (PoolServer.oneShare name now w).workerName := by
  show PlainText (if w.workerName.isEmpty then name else w.workerName)
  split
  · exact hname
  · exact h

theorem creditWorker {now : UInt64} (h : TidyWorkers workers) (haddr : PlainText addr) :
    TidyWorkers (PoolServer.creditWorker addr now workers) := by
  obtain ⟨ha, hn⟩ := h.workerAt addr
  refine h.insert ?_ haddr (oneShare_name ⟨by decide +kernel, by decide +kernel⟩ hn)
  show (if (PoolServer.workerAt workers addr).address.isEmpty then addr else _) = addr
  rcases ha with ha | ha
  · rw [ha, ite_self]
  · rw [ha]
    rfl

theorem creditOwner {now : UInt64} (h : TidyWorkers workers) (haddr : PlainText addr) :
    TidyWorkers (PoolServer.creditOwner addr now workers) :=
  h.insert rfl haddr (oneShare_name ⟨by decide +kernel, by decide +kernel⟩ (h.workerAt addr).2)

theorem mapWithKey {f : Bytes → PoolWorkerInfo → PoolWorkerInfo} (h : TidyWorkers workers)
    (hf : ∀ key w, (f key w).address = w.address ∧ (f key w).workerName = w.workerName) :
    TidyWorkers (workers.mapWithKey f) := by
  intro kv hkv
  obtain ⟨p, hp, rfl⟩ := List.mem_map.mp hkv
  obtain ⟨ha, hn⟩ := hf p.1 p.2
  dsimp only
  rw [ha, hn]
  exact h p hp

end TidyWorkers

namespace PoolState

variable {D : Doubles} {st : PoolState D}

structure Tidy (st : PoolState D) : Prop where
  workers : TidyWorkers st.workers
  payouts : ∀ r ∈ st.payouts, PlainText r.txid
  allUsers : ∀ kv ∈ st.allUsers.entries, newline ∉ kv.1
  users : ∀ kv ∈ st.users.entries, kv.1 = kv.2.address ∧ kv.2.Plain

theorem Tidy.lined (h : st.Tidy) : st.Lined where
  allUsers := h.allUsers
  users kv hmem := newline_user (h.users kv hmem).2
  workers kv hmem := newline_worker (h.workers kv hmem).2.1.2 (h.workers kv hmem).2.2.2
  payouts r hmem := newline_payout (h.payouts r hmem).2

theorem Tidy.restored (h : st.Tidy) (before : PoolState D) :
    (before.load (some st.save)).workers = st.workers ∧ (before.load (some st.save)).totalShares = st.totalShares ∧
      (before.load (some st.save)).payouts = st.payouts :=
  ⟨load_workers h.lined (fun kv hmem => (h.workers kv hmem).1)
      (fun kv hmem => ⟨(h.workers kv hmem).2.1.1, (h.workers kv hmem).2.2.1⟩) before,
    load_totalShares h.lined before, load_payouts h.lined (fun r hmem => (h.payouts r hmem).1) before⟩

theorem plain_reloaded {u : PoolUserRecord} (h : u.Plain) : u.reloaded.Plain := by
  have hchild : ∀ child ∈ u.reloaded.children, child = u.username ∧ child ≠ [] := by
    intro child hc
    by_cases hn : u.username = []
    · simp [PoolUserRecord.reloaded, hn] at hc
    · have hcu : child = u.username := by simpa [PoolUserRecord.reloaded, hn] using hc
      exact ⟨hcu, hcu ▸ hn⟩
  exact ⟨⟨h.bar.1, h.bar.2.1, h.bar.2.2.1, fun child hc => (hchild child hc).1 ▸ h.bar.2.2.1⟩,
    ⟨h.comma.1, h.comma.2.1, h.comma.2.2.1, fun child hc => (hchild child hc).1 ▸ h.comma.2.2.1⟩,
    ⟨h.line.1, h.line.2.1, h.line.2.2.1, fun child hc => (hchild child hc).1 ▸ h.line.2.2.1⟩,
    fun child hc => (hchild child hc).2⟩

theorem Tidy.load (h : st.Tidy) (before : PoolState D) : (before.load (some st.save)).Tidy := by
  obtain ⟨hworkers, -, hpayouts⟩ := h.restored before
  refine ⟨hworkers ▸ h.workers, hpayouts ▸ h.payouts, (load_allUsers h.lined before).symm ▸ h.allUsers, ?_⟩
  rw [load_users h.lined (fun kv hmem => (h.users kv hmem).1) (fun kv hmem => (h.users kv hmem).2) before]
  intro kv hkv
  obtain ⟨p, hp, rfl⟩ := List.mem_map.mp hkv
  exact ⟨(h.users p hp).1, plain_reloaded (h.users p hp).2⟩

theorem Tidy.initial (feePercent : D.Val) : (PoolState.initial D feePercent).Tidy := ⟨nofun, nofun, nofun, nofun⟩

end PoolState

/-! ## Sections of the server -/

theorem payouts_plain {K : Crypto} (call : PayoutCall K) (h : ∀ r ∈ call.payouts, PlainText r.txid) :
    ∀ r ∈ call.poolExecutePayout.payouts, PlainText r.txid := by
  unfold PayoutCall.poolExecutePayout
  split
  · exact h
  · split
    · exact h
    · exact h
    · split
      · exact h
      · rename_i hreceipt
        obtain ⟨txid, -, hreceipt⟩ := bind_ok.mp hreceipt
        obtain ⟨height, -, hreceipt⟩ := bind_ok.mp hreceipt
        rw [pure_ok, Prod.mk.injEq] at hreceipt
        intro r hr
        rcases List.mem_append.mp hr with hr | hr
        · exact h r hr
        · rw [List.mem_singleton.mp hr]
          exact hreceipt.1 ▸ plain_hashToHex txid

namespace PoolServer

variable {D : Doubles} {s : PoolServer D}

structure Tidy (s : PoolServer D) : Prop where
  state : s.state.Tidy
  file : ∀ text, s.file = some text → ∃ st : PoolState D, text = st.save ∧ st.Tidy

theorem Tidy.saved (h : s.state.Tidy) : s.saved.Tidy where
  state := h
  file _ ht := ⟨s.state, (Option.some.inj ht).symm, h⟩

theorem Tidy.loadOnce (h : s.Tidy) : s.loadOnce.state.Tidy := by
  rw [PoolServer.loadOnce]
  split
  · exact h.state
  · cases hfile : s.file with
    | none => exact h.state
    | some text =>
      obtain ⟨st, rfl, hst⟩ := h.file text hfile
      exact hst.load s.state

theorem Tidy.register {body : Bytes} {now : UInt64} (h : s.Tidy) (haddr : PlainText (stringField "address" body))
    (hname : PlainText (stringField "worker" body)) : (s.register body now).2.Tidy := by
  rw [PoolServer.register]
  split
  · exact h
  · have hload := h.loadOnce
    refine Tidy.saved ⟨hload.workers.insert rfl haddr ?_, hload.payouts, ?_, hload.users⟩
    · dsimp only
      split
      · exact (hload.workers.workerAt _).2
      · exact hname
    · intro kv hkv
      rcases OrdMap.mem_insert hkv with rfl | hkv
      · exact haddr.2
      · exact hload.allUsers kv hkv

theorem Tidy.payout {K : Crypto} (h : s.Tidy) (call : PayoutCall K) : (s.payout call).Tidy := by
  rw [PoolServer.payout]
  dsimp only
  split
  · exact Tidy.saved ⟨h.state.workers.mapWithKey fun _ _ => ⟨rfl, rfl⟩, payouts_plain _ h.state.payouts, h.state.allUsers,
      h.state.users⟩
  · exact h

theorem Tidy.heartbeat (h : s.Tidy) (addr : Bytes) (now : UInt64) : (s.heartbeat addr now).Tidy := by
  unfold PoolServer.heartbeat
  split
  · exact h
  · split
    · exact h
    · rename_i key w hfind
      obtain ⟨hk, ha, hn⟩ := h.state.workers (key, w) (List.mem_of_find?_eq_some hfind)
      have hkey : w.address = key := hk.symm
      exact ⟨⟨h.state.workers.insert hkey (hkey ▸ ha) hn, h.state.payouts, h.state.allUsers, h.state.users⟩, h.file⟩

theorem Tidy.creditShare {sub : Submission} {owner : Bytes} {now : UInt64} (h : s.Tidy) (haddr : PlainText sub.addr)
    (howner : PlainText owner) : (s.creditShare sub owner now).2.Tidy := by
  have hcount : ∀ s : PoolServer D, s.Tidy → (s.countShare sub owner now).2.Tidy := by
    intro s h
    have hcredit : TidyWorkers (creditWorker sub.addr now s.state.workers) := h.state.workers.creditWorker haddr
    refine ⟨⟨?_, h.state.payouts, h.state.allUsers, h.state.users⟩, h.file⟩
    rw [countShare]
    dsimp only
    split
    · exact hcredit.creditOwner howner
    · exact hcredit
  obtain ⟨hstate, hfile, -, -⟩ := s.seenFor_state sub.jobId
  have hseen : (s.seenFor sub.jobId).Tidy := ⟨hstate ▸ h.state, hfile ▸ h.file⟩
  rcases creditShare_cases (s := s) sub owner now with hc | ⟨-, hc | ⟨-, hc⟩⟩
  · rw [hc]
    exact h
  · rw [hc]
    exact hseen
  · rw [hc]
    exact hcount _ ⟨hseen.state, hseen.file⟩

theorem Tidy.blockFound (h : s.Tidy) (sub : Submission) : (s.blockFound sub).2.Tidy := by
  rw [PoolServer.blockFound]
  split
  · exact ⟨⟨h.state.workers, h.state.payouts, h.state.allUsers, h.state.users⟩, h.file⟩
  · exact h

theorem Tidy.publish (h : s.Tidy) (candidate : Block) (recipient : Bytes) : (s.publish candidate recipient).Tidy :=
  ⟨⟨h.state.workers, h.state.payouts, h.state.allUsers, h.state.users⟩, h.file⟩

theorem beginSubmit_addr {K : Crypto} {body : Bytes} {sub : Submission} (h : s.beginSubmit K body = .ok sub) :
    sub.addr = stringField "address" body := by
  rw [beginSubmit] at h
  iterate 5 (split at h; · exact absurd h (by simp))
  rw [← Except.ok.inj h]

end PoolServer

/-! ## Runs -/

/-- No text that the request adds has a bar or a newline. -/
def PoolEvent.Plain {K : Crypto} : PoolEvent K → Prop
  | .register body _ => PlainText (stringField "address" body) ∧ PlainText (stringField "worker" body)
  | .submit body => PlainText (stringField "address" body)
  | _ => True

def PoolThread.Plain : PoolThread → Prop
  | .submit sub _ => PlainText sub.addr
  | .job _ => True

namespace PoolWorld

variable {K : Crypto} {D : Doubles}

open Interleave.System (Keeps)

theorem spawn_tidy (event : PoolEvent K) (w : PoolWorld K D) (hP : event.Plain) (h : w.server.Tidy) :
    Keeps (fun w => w.server.Tidy) (fun _ t => t.Plain) w ((system K D).spawn event w) := by
  cases event with
  | register body now => exact .ended (h.register hP.1 hP.2) fun _ hu => hu
  | payout call => exact .ended (h.payout call) fun _ hu => hu
  | job address now => exact ⟨h.heartbeat address now, by rintro t ⟨⟩; trivial, fun _ hu => hu⟩
  | submit body =>
    show Keeps _ _ w (w.spawn (.submit body))
    rw [spawn]
    cases hb : w.server.beginSubmit K body with
    | error reply => exact .ended h fun _ hu => hu
    | ok sub =>
      have haddr : PlainText sub.addr := PoolServer.beginSubmit_addr hb ▸ hP
      dsimp only
      split
      · exact ⟨h, by rintro t ⟨⟩; exact haddr, fun _ hu => hu⟩
      · obtain ⟨⟨hs, -, -⟩, ht⟩ := afterCredit_same (w := w) sub false
        refine ⟨hs ▸ h, fun t htm => ?_, fun _ hu => hu⟩
        obtain ⟨phase, rfl⟩ := ht t htm
        exact haddr
  | node event => exact .ended h fun _ hu => hu

theorem advance_tidy (choice : PoolChoice) (w : PoolWorld K D) (t : PoolThread) (h : w.server.Tidy) (ht : t.Plain) :
    Keeps (fun w => w.server.Tidy) (fun _ t => t.Plain) w ((system K D).advance choice w t) := by
  cases t with
  | job phase =>
    obtain ⟨heffect, hthread⟩ := advanceJob_stays (w := w) choice phase
    refine ⟨?_, fun t htm => ?_, fun _ hu => hu⟩
    · cases heffect with
      | none hs => exact hs ▸ h
      | publish hs => exact hs ▸ h.publish _ _
    · obtain ⟨phase', rfl⟩ := hthread t htm
      trivial
  | submit sub phase =>
    obtain ⟨heffect, -, hthread⟩ := advanceSubmit_effect (w := w) choice sub phase
    refine ⟨?_, fun t htm => ?_, fun _ hu => hu⟩
    · show (w.advanceSubmit choice sub phase).1.server.Tidy
      cases heffect with
      | none hs => exact hs ▸ h
      | @refused walletKey now _ _ hc hs =>
        have hserver : (w.server.creditShare sub (ownerAddress K walletKey) now).2.Tidy :=
          h.creditShare ht (plain_ownerAddress K walletKey)
        rw [hc] at hserver
        exact hs ▸ hserver
      | @credit walletKey now _ _ hc hs =>
        have hserver : (w.server.creditShare sub (ownerAddress K walletKey) now).2.Tidy :=
          h.creditShare ht (plain_ownerAddress K walletKey)
        rw [hc] at hserver
        exact hs ▸ hserver
      | blockFound hs => exact hs ▸ h.blockFound sub
      | saved hs => exact hs ▸ .saved h.state
    · obtain ⟨phase', rfl⟩ := hthread t htm
      exact ht

/-- While the requests put no bar and no newline into an address or a name, every state that the pool reaches is read
back from its file: the workers, the total of shares and the payouts. -/
theorem workers_survive_restart (feePercent : D.Val) (node : Node K) (chain : List Block)
    (events : List (Interleave.Event (PoolEvent K) PoolChoice)) (hplain : Interleave.System.Admits PoolEvent.Plain events)
    (before : PoolState D) :
    let st := ((started D feePercent node chain none).run events).server.state
    (before.load (some st.save)).workers = st.workers ∧ (before.load (some st.save)).totalShares = st.totalShares ∧
      (before.load (some st.save)).payouts = st.payouts := by
  have hstart : (started D feePercent node chain none).server.Tidy := ⟨.initial feePercent, nofun⟩
  exact (run_keeps spawn_tidy advance_tidy hplain hstart).state.restored before

def toyPool : PoolWorld toyCrypto toyDoubles := started toyDoubles () (toyNode [toyGenesis]) [toyGenesis] none

def paidPool : PoolWorld toyCrypto toyDoubles :=
  started toyDoubles () (toyNode [toyGenesis, toyFirst]) [toyGenesis, toyFirst] none

/-- A worker registers, fetches a job, sends a nonce that is a block, and is paid for its share. -/
def plainRequests : List (Interleave.Event (PoolEvent toyCrypto) PoolChoice) :=
  let turn := .advance 0 ⟨true, none, 100⟩
  .spawn (.register (ascii "\x7b\"address\":\"CZa\",\"worker\":\"rig\"\x7d") 100) ::
    .spawn (.job (ascii "CZa") 100) :: (List.replicate 9 turn ++
    .spawn (.submit (ascii "\x7b\"address\":\"CZa\",\"job_id\":1,\"nonce\":7\x7d")) :: (List.replicate 4 turn ++
    [.spawn (.payout (toyPayout [] ⟨[(ascii "CZa", 1)], List.pairwise_singleton _ _⟩))]))

theorem plainRequests_plain : Interleave.System.Admits PoolEvent.Plain plainRequests := by
  intro event h
  simp only [plainRequests, List.mem_cons, List.mem_append, List.mem_replicate, Interleave.Event.spawn.injEq, reduceCtorEq,
    and_false, false_or, List.not_mem_nil, or_false] at h
  rcases h with rfl | rfl | rfl | rfl
  · exact ⟨⟨by decide +kernel, by decide +kernel⟩, by decide +kernel, by decide +kernel⟩
  · trivial
  · exact ⟨by decide +kernel, by decide +kernel⟩
  · trivial

theorem workers_survive_restart_toy :
    let st := (paidPool.run plainRequests).server.state
    (st.workers.find? (ascii "CZa")).map (fun w => (w.shares, w.sharesPending)) = some (1, 0) ∧ st.payouts.length = 1 ∧
      (toyPool.server.state.load (some st.save)).workers = st.workers ∧
        (toyPool.server.state.load (some st.save)).totalShares = st.totalShares ∧
          (toyPool.server.state.load (some st.save)).payouts = st.payouts := by
  have hshares : (((paidPool.run plainRequests).server.state.workers.find? (ascii "CZa")).map fun w =>
      (w.shares, w.sharesPending)) = some (1, 0) := by decide +kernel
  have hpaid : (paidPool.run plainRequests).server.state.payouts.length = 1 := by decide +kernel
  have hback := workers_survive_restart (K := toyCrypto) (D := toyDoubles) () (toyNode [toyGenesis, toyFirst])
    [toyGenesis, toyFirst] plainRequests plainRequests_plain toyPool.server.state
  rw [← paidPool] at hback
  exact ⟨hshares, hpaid, hback⟩

def forgedRegistration : List (Interleave.Event (PoolEvent toyCrypto) PoolChoice) :=
  [.spawn (.register (ascii "\x7b\"address\":\"CZa|rig|7|9|0\"\x7d") 100)]

/-- An address that carries the fields of another worker gives it pending shares after a restart. -/
theorem restart_forges_pending_shares :
    let st := (toyPool.run forgedRegistration).server.state
    st.workers.find? (ascii "CZa") = none ∧
      ((toyPool.server.state.load (some st.save)).workers.find? (ascii "CZa")).map PoolWorkerInfo.sharesPending = some 9 := by
  decide +kernel

end PoolWorld

end Caesar
