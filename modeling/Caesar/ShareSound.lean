import Caesar.CanonicalSound
import Caesar.PoolSound
import Caesar.PoolStateSound

/-!
# How often a solution is paid

The keys that the pool has seen for a job are made of the address and the nonce.
So the same nonce counts once for an address, and as often as there are
addresses that submit it; and every fourth share of others counts once more, for
the owner of the pool.
-/

namespace Caesar

open Codec Text

namespace PoolWorld

variable {K : Crypto} {D : Doubles} {w after : PoolWorld K D}

/-- The keys seen are those of the credits of their job, and a job that they are not of has no credit yet. -/
structure Counted (w : PoolWorld K D) : Prop where
  current : w.server.currentJob.active = true → w.server.currentJob.jobId ∈ w.published
  known : ∀ c ∈ w.credits, c.jobId ∈ w.published
  seen : ∀ c ∈ w.credits, c.jobId = w.server.dupSeenJob → PoolServer.dupKey c.address c.nonce ∈ w.server.dupSeen
  fresh : w.server.currentJob.active = true → w.server.currentJob.jobId ≠ w.server.dupSeenJob →
    ∀ c ∈ w.credits, c.jobId ≠ w.server.currentJob.jobId
  distinct : w.credits.Pairwise fun a b => (a.jobId, a.nonce, a.address) ≠ (b.jobId, b.nonce, b.address)

def view (w : PoolWorld K D) : PoolJobState × UInt64 × List Bytes × List Credit × List UInt64 :=
  (w.server.currentJob, w.server.dupSeenJob, w.server.dupSeen, w.credits, w.published)

theorem Counted.of_view (h : w.Counted) (hv : after.view = w.view) : after.Counted := by
  simp only [view, Prod.mk.injEq] at hv
  obtain ⟨hjob, hseenJob, hseen, hcredits, hpublished⟩ := hv
  constructor
  · rw [hjob, hpublished]
    exact h.current
  · rw [hcredits, hpublished]
    exact h.known
  · rw [hcredits, hseenJob, hseen]
    exact h.seen
  · rw [hjob, hseenJob, hcredits]
    exact h.fresh
  · rw [hcredits]
    exact h.distinct

theorem Counted.publish {candidate : Block} {recipient : Bytes} (h : w.Counted)
    (hserver : after.server = w.server.publish candidate recipient) (hcredits : after.credits = w.credits)
    (hpublished : after.published = (w.server.state.jobCounter + 1) :: w.published)
    (hnew : w.server.state.jobCounter + 1 ∉ w.published) : after.Counted where
  current _ := by
    rw [hserver, hpublished]
    exact List.mem_cons_self
  known c hc := by
    rw [hpublished]
    exact List.mem_cons_of_mem _ (h.known c (hcredits ▸ hc))
  seen c hc hj := by
    rw [hserver] at hj ⊢
    exact h.seen c (hcredits ▸ hc) hj
  fresh _ _ c hc he := by
    rw [hserver] at he
    have hid : c.jobId = w.server.state.jobCounter + 1 := he
    exact hnew (hid ▸ h.known c (hcredits ▸ hc))
  distinct := hcredits ▸ h.distinct

/-- The keys of another job are dropped only when the current one has no credit. -/
theorem Counted.seenFor {jobId : UInt64} (h : w.Counted) (hactive : w.server.currentJob.active = true)
    (hjob : w.server.currentJob.jobId = jobId) : { w with server := w.server.seenFor jobId }.Counted := by
  rw [PoolServer.seenFor]
  by_cases hne : w.server.dupSeenJob ≠ jobId
  · rw [if_pos hne]
    have hnone : ∀ c ∈ w.credits, c.jobId ≠ jobId := by
      intro c hc
      rw [← hjob]
      exact h.fresh hactive (fun he => hne (he.symm.trans hjob)) c hc
    exact ⟨h.current, h.known, fun c hc hj => absurd hj (hnone c hc), fun _ hj => absurd hjob hj, h.distinct⟩
  · rw [if_neg hne]
    exact h

theorem Counted.refused {sub : Submission} {owner : Bytes} {now : UInt64} {reply : PoolReply} {server : PoolServer D}
    (h : w.Counted) (hc : w.server.creditShare sub owner now = (.error reply, server)) (hserver : after.server = server)
    (hcredits : after.credits = w.credits) (hpublished : after.published = w.published) : after.Counted := by
  rcases PoolServer.creditShare_cases (s := w.server) sub owner now with hs | ⟨⟨hactive, hjob⟩, hs | ⟨-, hs⟩⟩
  · rw [hs, Prod.mk.injEq] at hc
    exact h.of_view (by simp only [view, hserver, ← hc.2, hcredits, hpublished])
  · rw [hs, Prod.mk.injEq] at hc
    exact (h.seenFor hactive hjob).of_view (by simp only [view, hserver, ← hc.2, hcredits, hpublished])
  · rw [hs] at hc
    exact absurd (congrArg Prod.fst hc) (by simp)

theorem Counted.credit {sub : Submission} {owner : Bytes} {now : UInt64} {credit : Credit} {server : PoolServer D}
    (h : w.Counted) (hc : w.server.creditShare sub owner now = (.ok credit, server)) (hserver : after.server = server)
    (hcredits : after.credits = credit :: w.credits) (hpublished : after.published = w.published) : after.Counted := by
  rcases PoolServer.creditShare_cases (s := w.server) sub owner now with hs | ⟨⟨hactive, hjob⟩, hs | ⟨hkey, hs⟩⟩
  · rw [hs] at hc
    exact absurd (congrArg Prod.fst hc) (by simp)
  · rw [hs] at hc
    exact absurd (congrArg Prod.fst hc) (by simp)
  · rw [hs, Prod.mk.injEq, Except.ok.injEq] at hc
    obtain ⟨rfl, rfl⟩ := hc
    obtain ⟨-, -, hcur, hseenJob⟩ := w.server.seenFor_state sub.jobId
    have hseen := h.seenFor hactive hjob
    constructor
    · intro _
      rw [hserver, hpublished]
      exact hcur ▸ h.current hactive
    · rw [hcredits, hpublished, List.forall_mem_cons]
      have hid : sub.jobId ∈ w.published := hjob ▸ h.current hactive
      exact ⟨hid, h.known⟩
    · rw [hcredits, hserver, List.forall_mem_cons]
      exact ⟨fun _ => List.mem_cons_self, fun c hc hj => List.mem_cons_of_mem _ (hseen.seen c hc hj)⟩
    · intro _ hne
      rw [hserver] at hne
      exact absurd (hcur ▸ hjob.trans hseenJob.symm) hne
    · rw [hcredits]
      refine List.pairwise_cons.mpr ⟨fun c hc he => ?_, h.distinct⟩
      obtain ⟨hj, hn, ha⟩ : sub.jobId = c.jobId ∧ sub.nonce = c.nonce ∧ sub.addr = c.address := by
        simpa [PoolServer.countShare] using he
      -- the earlier credit has left the very key that was not seen
      exact hkey (ha ▸ hn ▸ hseen.seen c hc (hj.symm.trans hseenJob.symm))

theorem Counted.blockFound (h : w.Counted) (sub : Submission) (hserver : after.server = (w.server.blockFound sub).2)
    (hcredits : after.credits = w.credits) (hpublished : after.published = w.published) : after.Counted := by
  rw [PoolServer.blockFound] at hserver
  split at hserver
  · constructor
    · intro ha
      rw [hserver] at ha
      exact absurd ha Bool.false_ne_true
    · rw [hcredits, hpublished]
      exact h.known
    · rw [hcredits, hserver]
      exact h.seen
    · intro ha
      rw [hserver] at ha
      exact absurd ha Bool.false_ne_true
    · rw [hcredits]
      exact h.distinct
  · exact h.of_view (by simp only [view, hserver, hcredits, hpublished])

/-! ## Runs -/

open Interleave.System (Keeps)

end PoolWorld

end Caesar
