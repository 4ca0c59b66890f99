import Caesar.PoolStateSound
import Caesar.Users

/-!
# What a registration does to the registry

A request leaves the registry as it was, or enters one user under the next
number. A request with a user name that passes every check reaches the second
guard while it holds the mutex.
-/

namespace Caesar

open Codec Text

variable {D : Doubles}

/-! ## The registry -/

namespace PoolState

/-- The counters agree with the users, and no two users have the same number or the same name. -/
structure Registry (st : PoolState D) : Prop where
  registered : st.totalRegistered.toNat = st.users.entries.length
  next : st.totalRegistered = st.nextUserNumber - 1
  numbers : ∀ a ∈ st.users.entries, ∀ b ∈ st.users.entries, a.1 ≠ b.1 → a.2.userNumber ≠ b.2.userNumber
  usernames : ∀ a ∈ st.users.entries, ∀ b ∈ st.users.entries, a.1 ≠ b.1 → a.2.username ≠ [] → a.2.username ≠ b.2.username

instance (st : PoolState D) : Decidable st.Registry :=
  decidable_of_iff (_ ∧ _ ∧ _ ∧ _) ⟨fun h => ⟨h.1, h.2.1, h.2.2.1, h.2.2.2⟩, fun h => ⟨h.1, h.2, h.3, h.4⟩⟩

def Numbered (st : PoolState D) : Prop := ∀ a ∈ st.users.entries, a.2.userNumber.toNat < st.nextUserNumber.toNat

instance (st : PoolState D) : Decidable st.Numbered := inferInstanceAs (Decidable (∀ _ ∈ _, _))

end PoolState

namespace PoolServer

variable {s : PoolServer D}

theorem loadOnce_loaded (s : PoolServer D) : s.loadOnce.stateLoaded = true := by
  rw [loadOnce]
  split
  · assumption
  · rfl

theorem loadOnce_idem : s.loadOnce.loadOnce = s.loadOnce := if_pos s.loadOnce_loaded

theorem mem_adopt {parent addr : Bytes} {users : OrdMap Bytes PoolUserRecord} {a : Bytes × PoolUserRecord}
    (h : a ∈ (adopt parent addr users).entries) : ∃ b ∈ users.entries, a.1 = b.1 ∧ a.2.userNumber = b.2.userNumber ∧
      a.2.username = b.2.username := by
  rw [adopt] at h
  split at h
  · obtain ⟨b, hb, rfl⟩ := List.mem_map.mp h
    refine ⟨b, hb, rfl, ?_⟩
    dsimp only
    split
    · exact ⟨rfl, rfl⟩
    · exact ⟨rfl, rfl⟩
  · exact ⟨a, h, rfl, rfl, rfl⟩

theorem length_adopt (parent addr : Bytes) (users : OrdMap Bytes PoolUserRecord) :
    (adopt parent addr users).entries.length = users.entries.length := by
  rw [adopt]
  split
  · exact List.length_map _
  · rfl

theorem find?_adopt {parent addr : Bytes} {users : OrdMap Bytes PoolUserRecord} (h : users.find? addr = none) :
    (adopt parent addr users).find? addr = none := by
  cases hf : (adopt parent addr users).find? addr with
  | none => rfl
  | some u =>
    obtain ⟨b, hb, hkey, -⟩ := mem_adopt (OrdMap.mem_entries.mpr hf)
    have hfound : users.find? b.1 = some b.2 := OrdMap.mem_entries.mp hb
    rw [← hkey, h] at hfound
    cases hfound

theorem mem_addUser {addr username parent : Bytes} {now : UInt64} {a : Bytes × PoolUserRecord}
    (h : a ∈ (s.addUser addr username parent now).2.state.users.entries) :
    a = (addr, (s.addUser addr username parent now).1) ∨
      ∃ b ∈ s.state.users.entries, a.1 = b.1 ∧ a.2.userNumber = b.2.userNumber ∧ a.2.username = b.2.username := by
  rcases OrdMap.mem_insert h with rfl | h
  · exact Or.inl rfl
  · exact Or.inr (mem_adopt h)

theorem length_addUser {addr username parent : Bytes} {now : UInt64} (h : s.state.users.find? addr = none) :
    (s.addUser addr username parent now).2.state.users.entries.length = s.state.users.entries.length + 1 := by
  calc ((adopt parent addr s.state.users).insert addr _).entries.length
      = (adopt parent addr s.state.users).entries.length + 1 := OrdMap.length_insert (find?_adopt h)
    _ = s.state.users.entries.length + 1 := by rw [length_adopt]

section
variable {addr username parent : Bytes} {now : UInt64} (hfit : s.state.nextUserNumber.toNat < 2 ^ 32)
include hfit

theorem addUser_number : (s.addUser addr username parent now).1.userNumber.toNat = s.state.nextUserNumber.toNat :=
  (UInt64.toNat_toUInt32 _).trans (Nat.mod_eq_of_lt hfit)

theorem addUser_next :
    (s.addUser addr username parent now).2.state.nextUserNumber.toNat = s.state.nextUserNumber.toNat + 1 := by
  show (s.state.nextUserNumber + 1).toNat = _
  rw [UInt64.toNat_add, UInt64.toNat_one, Nat.mod_eq_of_lt (by omega)]

theorem addUser_numbered (hn : s.state.Numbered) : (s.addUser addr username parent now).2.state.Numbered := by
  intro a ha
  rw [addUser_next hfit]
  rcases mem_addUser ha with rfl | ⟨b, hb, -, hnumber, -⟩
  · rw [addUser_number hfit]
    exact Nat.lt_succ_self _
  · rw [hnumber]
    exact Nat.lt_succ_of_lt (hn b hb)

theorem addUser_registry (h : s.state.Registry) (hn : s.state.Numbered) (haddr : s.state.users.find? addr = none)
    (hname : username ≠ [] → ∀ b ∈ s.state.users.entries, b.2.username ≠ username) :
    (s.addUser addr username parent now).2.state.Registry := by
  have hbelow : ∀ b ∈ s.state.users.entries, b.2.userNumber ≠ (s.addUser addr username parent now).1.userNumber := by
    intro b hb he
    have hlt := hn b hb
    rw [he, addUser_number hfit] at hlt
    exact Nat.lt_irrefl _ hlt
  -- the counter of the users cannot wrap: it is one below the next number
  have htotal : s.state.totalRegistered.toNat + 1 < 2 ^ 64 := by
    have hsub := h.next
    by_cases hzero : s.state.nextUserNumber = 0
    · have hempty : s.state.users.entries = [] := by
        by_contra hne
        obtain ⟨b, hb⟩ := List.exists_mem_of_ne_nil _ hne
        have hlt := hn b hb
        rw [hzero] at hlt
        exact Nat.not_lt_zero _ hlt
      rw [h.registered, hempty]
      decide
    · have hone : 1 ≤ s.state.nextUserNumber := by
        rw [UInt64.le_iff_toNat_le, UInt64.toNat_one, Nat.one_le_iff_ne_zero]
        exact fun hz => hzero (UInt64.toNat_inj.mp hz)
      rw [hsub, UInt64.toNat_sub_of_le _ _ hone]
      omega
  constructor
  · show (s.state.totalRegistered + 1).toNat = _
    rw [length_addUser haddr, UInt64.toNat_add, UInt64.toNat_one, Nat.mod_eq_of_lt htotal, h.registered]
  · show s.state.totalRegistered + 1 = s.state.nextUserNumber + 1 - 1
    rw [h.next]
    simp
  · intro a ha b hb hne
    rcases mem_addUser ha with rfl | ⟨a', ha', hakey, hanumber, -⟩
    · rcases mem_addUser hb with rfl | ⟨b', hb', -, hbnumber, -⟩
      · exact absurd rfl hne
      · rw [hbnumber]
        exact (hbelow b' hb').symm
    · rcases mem_addUser hb with rfl | ⟨b', hb', hbkey, hbnumber, -⟩
      · rw [hanumber]
        exact hbelow a' ha'
      · rw [hanumber, hbnumber]
        exact h.numbers a' ha' b' hb' (hakey ▸ hbkey ▸ hne)
  · intro a ha b hb hne hnonempty
    rcases mem_addUser ha with rfl | ⟨a', ha', hakey, -, haname⟩
    · rcases mem_addUser hb with rfl | ⟨b', hb', -, -, hbname⟩
      · exact absurd rfl hne
      · rw [hbname]
        exact (hname hnonempty b' hb').symm
    · rcases mem_addUser hb with rfl | ⟨b', hb', hbkey, -, hbname⟩
      · rw [haname] at hnonempty ⊢
        intro (he : a'.2.username = username)
        rw [he] at hnonempty
        exact hname hnonempty a' ha' he
      · rw [haname] at hnonempty ⊢
        rw [hbname]
        exact h.usernames a' ha' b' hb' (hakey ▸ hbkey ▸ hne) hnonempty

end

end PoolServer

/-! ## Requests -/

/-- A request that would make a wallet: a user name and a PIN of the right form, a name that nobody has, and a library that
makes the wallet and writes its file. -/
structure UserRequest.Opens (r : UserRequest) (st : PoolState D) : Prop where
  username : 3 ≤ r.username.length ∧ r.username.length ≤ 32
  pin : 4 ≤ r.pin.length ∧ r.pin.length ≤ 12
  letters : r.username.all usernameByte = true
  fresh : ∀ a ∈ st.users.entries, a.2.username ≠ r.username
  wallet : ∃ wallet, r.generated = .ok wallet ∧ wallet.address ≠ []
  written : r.encrypted = .ok ()

namespace PoolServer

variable {s : PoolServer D} {r : UserRequest}

/-- What a request does when the mutex is free: it locks itself out, or leaves the state, or enters its address. -/
inductive Effect (r : UserRequest) (s : PoolServer D) : Ending (PoolServer D) UserReply → Prop
  | selfLock : r.Opens s.loadOnce.state → Effect r s (.selfLock s.loadOnce)
  | same {reply s'} : ¬ r.Opens s.loadOnce.state → s'.loadOnce = s.loadOnce → Effect r s (.done reply s')
  | added {reply} : ¬ r.Opens s.loadOnce.state → s.loadOnce.state.users.find? r.address = none →
    Effect r s (.done reply (s.loadOnce.addUser r.address [] r.parent r.now).2)

theorem registerAddress_effect (hform : (r.username.isEmpty || r.pin.isEmpty) = true) :
    Effect r s (s.registerAddress r .nobody) := by
  have hnot : ¬ r.Opens s.loadOnce.state := by
    intro h
    rcases Bool.or_eq_true_iff.mp hform with he | he
    · have hlen := h.username.1
      rw [List.isEmpty_iff.mp he] at hlen
      exact absurd hlen (by decide)
    · have hlen := h.pin.1
      rw [List.isEmpty_iff.mp he] at hlen
      exact absurd hlen (by decide)
  rw [registerAddress]
  split
  · exact .same hnot rfl
  · dsimp only [lockGuard]
    cases hf : s.loadOnce.state.users.find? r.address with
    | some u => exact .same hnot loadOnce_idem
    | none => exact .added hnot hf

theorem registerUsername_effect : Effect r s (s.registerUsername r .nobody) := by
  rw [registerUsername]
  split
  · rename_i hlen
    exact .same (fun h => by have := h.username; omega) rfl
  · rename_i hlen
    split
    · rename_i hpin
      exact .same (fun h => by have := h.pin; omega) rfl
    · rename_i hpin
      split
      · rename_i hletters
        exact .same (fun h => by rw [h.letters] at hletters; exact absurd hletters (by decide)) rfl
      · rename_i hletters
        dsimp only [lockGuard]
        split
        · rename_i htaken
          refine .same (fun h => ?_) loadOnce_idem
          obtain ⟨a, ha, hname⟩ := List.any_eq_true.mp htaken
          exact h.fresh a ha (of_decide_eq_true hname)
        · rename_i hfree
          cases hgen : r.generated with
          | error e => exact .same (fun h => by obtain ⟨_, hw, -⟩ := h.wallet; rw [hgen] at hw; cases hw) loadOnce_idem
          | ok wallet =>
            dsimp only
            split
            · rename_i hempty
              refine .same (fun h => ?_) loadOnce_idem
              obtain ⟨w, hw, hne⟩ := h.wallet
              rw [hgen, Except.ok.injEq] at hw
              exact hne (hw ▸ List.isEmpty_iff.mp hempty)
            · rename_i hne
              cases henc : r.encrypted with
              | error e => exact .same (fun h => by have hw := h.written; rw [henc] at hw; cases hw) loadOnce_idem
              | ok u =>
                -- the second guard meets the mutex that the first one took
                refine .selfLock ⟨by omega, by omega, by simpa using hletters, fun a ha hname => hfree ?_, ?_, henc⟩
                · exact List.any_eq_true.mpr ⟨a, ha, decide_eq_true hname⟩
                · exact ⟨wallet, hgen, fun he => hne (List.isEmpty_iff.mpr he)⟩

theorem userRegister_effect : Effect r s (s.userRegister r .nobody) := by
  rw [userRegister]
  by_cases hform : (r.username.isEmpty || r.pin.isEmpty) = true
  · rw [if_pos hform]
    exact registerAddress_effect hform
  · rw [if_neg hform]
    exact registerUsername_effect

theorem userRegister_other :
    (∃ reply, s.userRegister r .other = .done reply s) ∨ s.userRegister r .other = .blocked s := by
  rw [userRegister]
  split
  · rw [registerAddress]
    split
    · exact Or.inl ⟨_, rfl⟩
    · exact Or.inr rfl
  · rw [registerUsername]
    split
    · exact Or.inl ⟨_, rfl⟩
    · split
      · exact Or.inl ⟨_, rfl⟩
      · split
        · exact Or.inl ⟨_, rfl⟩
        · exact Or.inr rfl

end PoolServer

/-! ## Runs -/

namespace Registrar

variable {w : Registrar D} {r : UserRequest}

/-- One request: the mutex is lost exactly when the request would make a wallet, and the registry stays or gains the
address. -/
theorem step_effect (w : Registrar D) (r : UserRequest) :
    ((w.step r).stuck = true ↔ w.stuck = true ∨ r.Opens w.registry) ∧
      ((w.step r).registry = w.registry ∨ w.registry.users.find? r.address = none ∧
        (w.step r).registry = (w.server.loadOnce.addUser r.address [] r.parent r.now).2.state) := by
  rw [step, ending]
  by_cases hstuck : w.stuck = true
  · rw [if_pos hstuck]
    rcases PoolServer.userRegister_other (s := w.server) (r := r) with ⟨reply, he⟩ | he
    · rw [he]
      exact ⟨⟨Or.inl, fun _ => hstuck⟩, Or.inl rfl⟩
    · rw [he]
      exact ⟨⟨Or.inl, fun _ => hstuck⟩, Or.inl rfl⟩
  · rw [if_neg hstuck]
    have heffect := PoolServer.userRegister_effect (s := w.server) (r := r)
    generalize w.server.userRegister r .nobody = ending at heffect
    cases heffect with
    | selfLock hopens =>
      refine ⟨⟨fun _ => Or.inr hopens, fun _ => rfl⟩, Or.inl ?_⟩
      exact congrArg PoolServer.state PoolServer.loadOnce_idem
    | same hnot hsame =>
      exact ⟨⟨Or.inl, fun h => h.resolve_right hnot⟩, Or.inl (congrArg PoolServer.state hsame)⟩
    | added hnot hfind =>
      refine ⟨⟨Or.inl, fun h => h.resolve_right hnot⟩, Or.inr ⟨hfind, ?_⟩⟩
      have hloaded : (w.server.loadOnce.addUser r.address [] r.parent r.now).2.stateLoaded = true := w.server.loadOnce_loaded
      rw [registry, PoolServer.loadOnce, if_pos hloaded]

def userCount (w : Registrar D) : Nat := w.registry.users.entries.length

theorem step_userCount (w : Registrar D) (r : UserRequest) : (w.step r).userCount ≤ w.userCount + 1 := by
  rw [userCount, userCount]
  rcases (step_effect w r).2 with hsame | ⟨hfind, hadded⟩
  · rw [hsame]
    exact Nat.le_succ _
  · rw [hadded, PoolServer.length_addUser hfind]
    exact le_rfl

theorem step_registry (h : w.registry.Registry) (hn : w.registry.Numbered)
    (hfit : w.registry.nextUserNumber.toNat < 2 ^ 32) (r : UserRequest) :
    (w.step r).registry.Registry ∧ (w.step r).registry.Numbered ∧
      (w.step r).registry.nextUserNumber.toNat ≤ w.registry.nextUserNumber.toNat + 1 := by
  rcases (step_effect w r).2 with hsame | ⟨hfind, hadded⟩
  · rw [hsame]
    exact ⟨h, hn, Nat.le_succ _⟩
  · rw [hadded]
    exact ⟨PoolServer.addUser_registry hfit h hn hfind fun hne => absurd rfl hne, PoolServer.addUser_numbered hfit hn,
      (PoolServer.addUser_next hfit).le⟩

theorem run_registry : ∀ (requests : List UserRequest) {w : Registrar D}, w.registry.Registry → w.registry.Numbered →
    w.registry.nextUserNumber.toNat + requests.length ≤ 2 ^ 32 → (w.run requests).registry.Registry
  | [], _, h, _, _ => h
  | r :: rest, w, h, hn, hfit => by
    rw [List.length_cons] at hfit
    obtain ⟨hregistry, hnumbered, hnext⟩ := step_registry h hn (by omega) r
    exact run_registry rest hregistry hnumbered (by omega)

theorem run_append (before after : List UserRequest) (w : Registrar D) :
    w.run (before ++ after) = (w.run before).run after := List.foldl_append

theorem run_stuck (requests : List UserRequest) (w : Registrar D) : (w.run requests).stuck = true ↔ w.stuck = true ∨
    ∃ before r after, requests = before ++ r :: after ∧ r.Opens (w.run before).registry := by
  induction requests using List.reverseRecOn with
  | nil => exact ⟨Or.inl, fun h => h.resolve_right (by simp)⟩
  | append_singleton requests r ih =>
    have hstep : (w.run (requests ++ [r])).stuck = true ↔ (w.run requests).stuck = true ∨ r.Opens (w.run requests).registry := by
      rw [run_append]
      exact (step_effect (w.run requests) r).1
    rw [hstep, ih, or_assoc]
    refine or_congr_right ⟨?_, ?_⟩
    · rintro (⟨before, q, after, rfl, hopens⟩ | hopens)
      · exact ⟨before, q, after ++ [r], by simp, hopens⟩
      · exact ⟨requests, r, [], rfl, hopens⟩
    · rintro ⟨before, q, after, heq, hopens⟩
      rcases List.eq_nil_or_concat after with rfl | ⟨rest, last, rfl⟩
      · obtain ⟨rfl, hq⟩ := List.append_inj' heq rfl
        rw [← (List.cons.inj hq).1] at hopens
        exact Or.inr hopens
      · have hlast : requests ++ [r] = (before ++ q :: rest) ++ [last] := by simpa using heq
        exact Or.inl ⟨before, q, rest, (List.append_inj' hlast rfl).1, hopens⟩

/-- From a registry that agrees with its counters, where the next number is above all that were given and the numbers do
not run out: a handler takes the mutex twice exactly when some request would make a wallet, every request adds at most one
user, and the registry agrees with its counters afterwards. -/
theorem registration_self_locks_iff (server : PoolServer D) (requests : List UserRequest)
    (hregistry : (⟨server, false⟩ : Registrar D).registry.Registry)
    (hnumbered : (⟨server, false⟩ : Registrar D).registry.Numbered)
    (hfit : (⟨server, false⟩ : Registrar D).registry.nextUserNumber.toNat + requests.length ≤ 2 ^ 32) :
    let start : Registrar D := ⟨server, false⟩
    ((start.run requests).stuck = true ↔
      ∃ before r after, requests = before ++ r :: after ∧ r.Opens (start.run before).registry) ∧
    (∀ before r after, requests = before ++ r :: after →
      (start.run (before ++ [r])).userCount ≤ (start.run before).userCount + 1) ∧
    (start.run requests).registry.Registry := by
  intro start
  refine ⟨?_, fun before r after _ => ?_, run_registry requests hregistry hnumbered hfit⟩
  · exact (run_stuck requests start).trans (or_iff_right Bool.false_ne_true)
  · rw [run_append]
    exact step_userCount (start.run before) r

def serving (state : PoolState toyDoubles) : Registrar toyDoubles where
  server :=
    { state := state, stateLoaded := true
      currentJob := ⟨false, 0, [], 0, 0, 0, ⟨⟨1, 0, Hash256.zero, Hash256.zero, Hash256.zero, 0, 0, 0⟩, []⟩, []⟩
      ownerShareAccum := 0, dupSeenJob := 0, dupSeen := [], file := none }
  stuck := false

def byAddress : UserRequest := ⟨ascii "\x7b\"address\":\"CZa\"\x7d", 100, fail "RAND_bytes failed", .ok ()⟩

def byUsername : UserRequest where
  body := ascii "\x7b\"username\":\"alice\",\"pin\":\"1234\"\x7d"
  now := 100
  generated := .ok ⟨ascii "abandon about", ascii "CZb", ascii "key"⟩
  encrypted := .ok ()

theorem registration_self_locks_toy :
    ((serving (.initial toyDoubles ())).run [byAddress]).userCount = 1 ∧
      ((serving (.initial toyDoubles ())).run [byAddress]).registry.Registry := by
  have hregistry : (serving (.initial toyDoubles ())).registry.Registry := by decide +kernel
  exact ⟨by decide +kernel, (registration_self_locks_iff (D := toyDoubles) (serving (.initial toyDoubles ())).server [byAddress]
    hregistry (by decide +kernel) (by decide +kernel)).2.2⟩

def numberAhead : PoolState toyDoubles :=
  { PoolState.initial toyDoubles () with
    users := OrdMap.empty.insert (ascii "CZb") ⟨ascii "CZb", [], [], [], 0, 2, true⟩, nextUserNumber := 2, totalRegistered := 1 }

/-- A user name and a PIN on an empty registry: the handler waits for the mutex it holds, and nobody is registered. And the
relation between users and counters alone does not keep the numbers apart. -/
theorem registration_self_locks : (PoolState.initial toyDoubles ()).Registry ∧
    ((serving (.initial toyDoubles ())).run [byUsername]).stuck = true ∧
    ((serving (.initial toyDoubles ())).run [byUsername]).userCount = 0 ∧
    numberAhead.Registry ∧ ¬ ((serving numberAhead).run [byAddress]).registry.Registry := by
  decide +kernel

end Registrar

end Caesar
