import Caesar.FormatSound
import Caesar.Pool

/-!
# What the sections of the pool change

One lemma for each kind of section: a share is counted, refused as stale or
refused as seen; a request for a job leaves the server as it is or publishes.
-/

namespace Caesar

open Codec Text

namespace PoolServer

variable {D : Doubles} {s : PoolServer D}

theorem creditShare_cases (sub : Submission) (owner : Bytes) (now : UInt64) :
    s.creditShare sub owner now = (.error .stale, s) ∨
    (s.currentJob.active = true ∧ s.currentJob.jobId = sub.jobId) ∧
      (s.creditShare sub owner now = (.error .duplicate, s.seenFor sub.jobId) ∨
        dupKey sub.addr sub.nonce ∉ (s.seenFor sub.jobId).dupSeen ∧
          s.creditShare sub owner now =
            (.ok (countShare sub owner now { s.seenFor sub.jobId with
                dupSeen := dupKey sub.addr sub.nonce :: (s.seenFor sub.jobId).dupSeen }).1,
              (countShare sub owner now { s.seenFor sub.jobId with
                dupSeen := dupKey sub.addr sub.nonce :: (s.seenFor sub.jobId).dupSeen }).2)) := by
  rw [creditShare]
  by_cases hjob : (!s.currentJob.active || decide (s.currentJob.jobId ≠ sub.jobId)) = true
  · exact Or.inl (if_pos hjob)
  · rw [if_neg hjob]
    have hcurrent : s.currentJob.active = true ∧ s.currentJob.jobId = sub.jobId := by simpa using hjob
    refine Or.inr ⟨hcurrent, ?_⟩
    by_cases hseen : dupKey sub.addr sub.nonce ∈ (s.seenFor sub.jobId).dupSeen
    · exact Or.inl (if_pos hseen)
    · exact Or.inr ⟨hseen, if_neg hseen⟩

theorem seenFor_state (jobId : UInt64) : (s.seenFor jobId).state = s.state ∧ (s.seenFor jobId).file = s.file ∧
    (s.seenFor jobId).currentJob = s.currentJob ∧ (s.seenFor jobId).dupSeenJob = jobId := by
  rw [seenFor]
  split
  · exact ⟨rfl, rfl, rfl, rfl⟩
  · rename_i h
    exact ⟨rfl, rfl, rfl, not_not.mp h⟩

end PoolServer

namespace PoolWorld

variable {K : Crypto} {D : Doubles} {w : PoolWorld K D}

/-- What a section of a request for a job leaves of the pool. -/
inductive JobEffect (w after : PoolWorld K D) : Prop
  | none : after.server = w.server → after.credits = w.credits → after.published = w.published → JobEffect w after
  | publish {candidate recipient} : after.server = w.server.publish candidate recipient → after.credits = w.credits →
    after.published = (w.server.state.jobCounter + 1) :: w.published → JobEffect w after

def StaysJob (w : PoolWorld K D) (r : PoolWorld K D × Option PoolThread) : Prop :=
  JobEffect w r.1 ∧ ∀ t ∈ r.2, ∃ phase, t = .job phase

theorem StaysJob.answer {after : PoolWorld K D} {reply : PoolReply} (h : JobEffect w after) :
    StaysJob w (after.answer reply) := by
  refine ⟨?_, nofun⟩
  cases h with
  | none hs hc hp => exact .none hs hc hp
  | publish hs hc hp => exact .publish hs hc hp

theorem StaysJob.next {after : PoolWorld K D} {phase : JobPhase} (h : JobEffect w after) :
    StaysJob w (after, some (.job phase)) :=
  ⟨h, fun _ ht => ⟨phase, (Option.mem_some.mp ht).symm⟩⟩

theorem JobEffect.release {after : PoolWorld K D} (h : JobEffect w after) : JobEffect w after.release := by
  cases h with
  | none hs hc hp => exact .none hs hc hp
  | publish hs hc hp => exact .publish hs hc hp

theorem StaysJob.retry {after : PoolWorld K D} (h : JobEffect w after) (attempt : Nat) (error : String) :
    StaysJob w (after.retry attempt error) := by
  rw [PoolWorld.retry]
  split
  · exact .next h
  · exact .answer h.release

theorem advanceJob_stays (choice : PoolChoice) (phase : JobPhase) : StaysJob w (w.advanceJob choice phase) := by
  have hself : JobEffect w w := .none rfl rfl rfl
  have hnode : ∀ node, JobEffect w (w.withNode node) := fun _ => .none rfl rfl rfl
  cases phase with
  | readInitial =>
    rw [advanceJob, readHeight]
    rcases w.node.height choice.owned with ⟨_ | r, node⟩
    · exact .answer (hnode node)
    · exact .next (hnode node)
  | compareInitial initial =>
    rw [advanceJob]
    split
    · exact .answer hself
    · exact .next hself
  | waitBuild =>
    rw [advanceJob]
    split
    · exact .next hself
    · exact .next (.none rfl rfl rfl)
  | readBuild attempt =>
    rw [advanceJob, readHeight]
    rcases w.node.height choice.owned with ⟨_ | r, node⟩
    · exact .answer (hnode node).release
    · exact .next (hnode node)
  | compareBuild attempt build =>
    rw [advanceJob]
    split
    · exact .answer hself.release
    · exact .next hself
  | loadChain attempt build =>
    rw [advanceJob]
    split
    · exact .answer hself.release
    · cases w.node.node.storage.load K with
      | error e => exact .answer hself.release
      | ok chain => exact .next hself
  | assemble attempt build recipient chain =>
    rw [advanceJob]
    cases Node.assembleCandidate chain recipient choice.now w.node.node.mempool with
    | error e => exact .answer hself.release
    | ok candidate => exact .next hself
  | readLatest attempt build recipient candidate =>
    rw [advanceJob, readHeight]
    rcases w.node.height choice.owned with ⟨_ | r, node⟩
    · exact .answer (hnode node).release
    · dsimp only [Except.map]
      split
      · exact .retry (hnode node) attempt _
      · exact .next (hnode node)
  | publish attempt build latest recipient candidate =>
    rw [advanceJob]
    split
    · exact .answer hself.release
    · split
      · exact .retry hself attempt _
      · exact .answer (JobEffect.release (.publish rfl rfl rfl))

inductive SubmitEffect (sub : Submission) (w after : PoolWorld K D) : Prop
  | none : after.server = w.server → after.credits = w.credits → SubmitEffect sub w after
  | refused {walletKey now reply server} :
    w.server.creditShare sub (ownerAddress K walletKey) now = (.error reply, server) →
    after.server = server → after.credits = w.credits → SubmitEffect sub w after
  | credit {walletKey now credit server} :
    w.server.creditShare sub (ownerAddress K walletKey) now = (.ok credit, server) →
    after.server = server → after.credits = credit :: w.credits → SubmitEffect sub w after
  | blockFound : after.server = (w.server.blockFound sub).2 → after.credits = w.credits → SubmitEffect sub w after
  | saved : after.server = w.server.saved → after.credits = w.credits → SubmitEffect sub w after

theorem afterCredit_same (sub : Submission) (credited : Bool) :
    ((w.afterCredit sub credited).1.server = w.server ∧ (w.afterCredit sub credited).1.credits = w.credits ∧
      (w.afterCredit sub credited).1.published = w.published) ∧
      ∀ t ∈ (w.afterCredit sub credited).2, ∃ phase, t = .submit sub phase := by
  rw [afterCredit]
  split
  · exact ⟨⟨rfl, rfl, rfl⟩, fun t ht => ⟨_, (Option.mem_some.mp ht).symm⟩⟩
  · split
    · exact ⟨⟨rfl, rfl, rfl⟩, fun t ht => ⟨_, (Option.mem_some.mp ht).symm⟩⟩
    · exact ⟨⟨rfl, rfl, rfl⟩, nofun⟩

theorem advanceSubmit_effect (choice : PoolChoice) (sub : Submission) (phase : SubmitPhase) :
    SubmitEffect sub w (w.advanceSubmit choice sub phase).1 ∧ (w.advanceSubmit choice sub phase).1.published = w.published ∧
      ∀ t ∈ (w.advanceSubmit choice sub phase).2, ∃ phase, t = .submit sub phase := by
  cases phase with
  | credit =>
    rw [advanceSubmit]
    rcases hc : w.server.creditShare sub (ownerAddress K choice.walletKey) choice.now with ⟨reply | credit, server⟩
    · exact ⟨.refused hc rfl rfl, rfl, nofun⟩
    · obtain ⟨⟨hs, hcr, hp⟩, ht⟩ := afterCredit_same (w := { w with server := server, credits := credit :: w.credits }) sub true
      exact ⟨.credit hc hs hcr, hp, ht⟩
  | solve credited =>
    rw [advanceSubmit]
    split
    · exact ⟨.none rfl rfl, rfl, fun t ht => ⟨_, (Option.mem_some.mp ht).symm⟩⟩
    · split
      · exact ⟨.none rfl rfl, rfl, fun t ht => ⟨_, (Option.mem_some.mp ht).symm⟩⟩
      · exact ⟨.none rfl rfl, rfl, nofun⟩
  | blockFound credited =>
    rw [advanceSubmit]
    rcases hb : w.server.blockFound sub with ⟨blockAdded, server⟩
    have hserver : server = (w.server.blockFound sub).2 := (congrArg Prod.snd hb).symm
    dsimp only
    split
    · exact ⟨.blockFound hserver rfl, rfl, fun t ht => ⟨_, (Option.mem_some.mp ht).symm⟩⟩
    · exact ⟨.blockFound hserver rfl, rfl, nofun⟩
  | save credited blockAdded => exact ⟨.saved rfl rfl, rfl, nofun⟩

/-! ## Runs -/

/-- What every section of the pool keeps holds in every state that it reaches. -/
theorem run_keeps {I : PoolWorld K D → Prop} {J : PoolWorld K D → PoolThread → Prop} {P : PoolEvent K → Prop}
    {events : List (Interleave.Event (PoolEvent K) PoolChoice)}
    (hspawn : ∀ event w, P event → I w → Interleave.System.Keeps I J w ((system K D).spawn event w))
    (hadvance : ∀ choice w t, I w → J w t → Interleave.System.Keeps I J w ((system K D).advance choice w t))
    (hP : Interleave.System.Admits P events) (h : I w) : I (w.run events) :=
  (Interleave.System.run_invariant hspawn hadvance (c := ⟨w, []⟩) hP ⟨h, nofun⟩).1

end PoolWorld

end Caesar
