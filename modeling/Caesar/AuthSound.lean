import Caesar.Auth
import Caesar.FormatSound

/-!
# What a request can do to the wallet and the session

A request leaves files, key and session alone, unless a PIN of its body fits the
PIN file, no PIN is set, or it recovers. So a client without the PIN gets in
exactly by `/api/auth/recover`.
-/

namespace Caesar

open Codec Text

theorem bodyField_part {key : String} {skip : Nat} {body text : Bytes} (h : bodyField key skip body = some text) :
    text <:+: body := by
  rw [bodyField, Option.map_eq_some_iff] at h
  obtain ⟨found, hfound, htext⟩ := h
  split at htext
  · rename_i before rest hcut
    rw [← htext]
    have hrest : rest <:+ body := (cut_suffix hcut).trans ((List.drop_suffix _ _).trans (suffixFrom_suffix hfound))
    exact ( List.takeWhile_prefix _).isInfix.trans hrest.isInfix
  · rw [← htext]
    exact ( List.takeWhile_prefix _).isInfix

theorem VaultLib.verifyPin_pinHash (V : VaultLib) {pin other : Bytes} {salt : Salt} :
    V.verifyPin (some (V.pinHash other salt)) pin = true ↔ V.hashPin pin salt.1 = V.hashPin other salt.1 := by
  have hlen : (V.pinHash other salt).length = 80 := by
    rw [VaultLib.pinHash, VaultLib.hashPin, List.length_append, bytesToHex_length, salt.2, (V.pbkdf2 _ _ _).2]
  have htake : (V.pinHash other salt).take 16 = salt.1 := List.take_left' salt.2
  have hdrop : (V.pinHash other salt).drop 16 = V.hashPin other salt.1 := List.drop_left' salt.2
  simp only [VaultLib.verifyPin, htake, hdrop, hlen]
  simp

namespace AuthState

variable {V : VaultLib} {s base after : AuthState V} {fault : Option AuthFault} {r : AuthRequest} {draw : Draw V}

/-! ## Requests that change nothing -/

/-- Files, key and session are the same. A local client may have set the flag. -/
structure Quiet (s after : AuthState V) : Prop where
  disk : after.disk = s.disk
  loaded : after.loaded = s.loaded
  sessionToken : after.sessionToken = s.sessionToken
  issued : after.issued = s.issued
  devNoAuth : after.devNoAuth = s.devNoAuth
  unlocked : s.unlocked = true → after.unlocked = true

theorem Quiet.refl (s : AuthState V) : s.Quiet s := ⟨rfl, rfl, rfl, rfl, rfl, id⟩

theorem Quiet.trans {mid : AuthState V} (h : s.Quiet mid) (g : mid.Quiet after) : s.Quiet after :=
  ⟨g.disk.trans h.disk, g.loaded.trans h.loaded, g.sessionToken.trans h.sessionToken, g.issued.trans h.issued,
    g.devNoAuth.trans h.devNoAuth, g.unlocked ∘ h.unlocked⟩

theorem quiet_record (ip : Bytes) (now : Nat) : s.Quiet (s.recordAuthFailure ip now) := ⟨rfl, rfl, rfl, rfl, rfl, id⟩

theorem quiet_clear (now : Nat) : s.Quiet (s.clearAuthFailures r now) := ⟨rfl, rfl, rfl, rfl, rfl, id⟩

theorem quiet_check (ip : Bytes) (now : Nat) : s.Quiet (s.checkRateLimit ip now).2 := by
  unfold checkRateLimit
  split
  · exact .refl s
  · split
    · split
      · exact .refl s
      · exact ⟨rfl, rfl, rfl, rfl, rfl, id⟩
    · exact .refl s

/-! ## What a request can do -/

/-- The body has the PIN, and the key is loaded or the PIN unlocks it. -/
structure Verified (fault : Option AuthFault) (r : AuthRequest) (s : AuthState V) (pin : Bytes) (key : V.Key) : Prop where
  sent : pin <:+: r.body
  fits : V.verifyPin s.disk.pin pin = true
  unlocks : ensureLoaded fault pin s = .ok key

/-- The request is one to recover with a valid mnemonic and a new PIN, and it is let through. -/
structure Recovers (r : AuthRequest) (draw : Draw V) (s : AuthState V) (mnemonic newPin : Bytes) : Prop where
  endpoint : r.endpoint = .recover
  origin : isCsrfSafe r.origin = true
  rate : (s.checkRateLimit r.clientIp draw.now).1 = true
  sentMnemonic : bodyField "mnemonic" 10 r.body = some mnemonic
  sentPin : bodyField "new_pin" 9 r.body = some newPin
  long : 4 ≤ newPin.length
  valid : V.validateMnemonic mnemonic = true

/-- What a request can do to the files, the key and the session. -/
inductive Access (fault : Option AuthFault) (r : AuthRequest) (draw : Draw V) (s : AuthState V) : AuthReply × AuthState V → Prop
  | quiet {reply after} : s.Quiet after → Access fault r draw s (reply, after)
  | unset {result} : s.disk.pin = none → Access fault r draw s result
  | loaded {pin key reply after} : Verified fault r s pin key → { s with loaded := some key }.Quiet after →
    Access fault r draw s (reply, after)
  | session {pin key base reply after} : Verified fault r s pin key → { s with loaded := some key }.Quiet base →
    (openSession fault draw [] none none base).2.Quiet after → Access fault r draw s (reply, after)
  | encrypted {pin key base} : r.endpoint = .encryptWallet → Verified fault r s pin key →
    { s with loaded := some key }.Quiet base →
    Access fault r draw s
      (persist fault draw (V.saveEncrypted pin draw.walletSalt draw.walletIv key) base fun s => (.encrypted, s))
  | changed {pin newPin key base} : r.endpoint = .changePin → Verified fault r s pin key →
    { s with loaded := some key }.Quiet base →
    Access fault r draw s (persist fault draw
      (V.saveEncrypted newPin draw.walletSalt draw.walletIv key ++ V.savePin newPin draw.pinSalt) base fun s => (.changed, s))
  | recovered {mnemonic newPin base} : Recovers r draw s mnemonic newPin → s.Quiet base →
    Access fault r draw s (replaceKey fault draw (V.walletFromMnemonic mnemonic) newPin none base)

theorem access_guarded {rest : AuthState V → AuthReply × AuthState V}
    (h : isCsrfSafe r.origin = true → Access fault r draw s (rest s)) : Access fault r draw s (guarded r s rest) := by
  rw [guarded]
  split
  · exact .quiet (.refl s)
  · rename_i hsafe
    exact h (by simpa using hsafe)

theorem access_limited {busy : String} {rest : AuthState V → AuthReply × AuthState V}
    (h : ∀ base, isCsrfSafe r.origin = true → (s.checkRateLimit r.clientIp draw.now).1 = true → s.Quiet base →
      Access fault r draw s (rest base)) : Access fault r draw s (limited r draw busy s rest) := by
  refine access_guarded fun hsafe => ?_
  have hquiet := quiet_check (s := s) r.clientIp draw.now
  rcases hcheck : s.checkRateLimit r.clientIp draw.now with ⟨_ | _, base⟩
  · rw [hcheck] at hquiet
    exact .quiet hquiet
  · rw [hcheck] at hquiet
    exact h base hsafe (congrArg Prod.fst hcheck) hquiet

/-- The evaluation of a PIN of the body: it fits the file, or nothing comes of it. -/
theorem access_verifyPin {limited : Bool} {pin : Bytes} {accepted : AuthState V → AuthReply × AuthState V}
    {refused : AuthState V → AuthReply × AuthState V} (hq : s.Quiet base) (href : ∀ base, s.Quiet base →
      Access fault r draw s (refused base))
    (hacc : ∀ base, s.Quiet base → V.verifyPin s.disk.pin pin = true → Access fault r draw s (accepted base)) :
    Access fault r draw s (match verifyPin fault r draw limited pin base with
      | (false, s) => refused s
      | (true, s) => accepted s) := by
  have hnoted : ∀ note, s.Quiet (base.noted r draw.now note) :=
    fun note => ⟨hq.disk, hq.loaded, hq.sessionToken, hq.issued, hq.devNoAuth, hq.unlocked⟩
  rcases hv : verifyPin fault r draw limited pin base with ⟨_ | _, next⟩
  · have hnext : _ = next := congrArg Prod.snd hv
    exact href next (hnext ▸ hnoted _)
  · have hnext : _ = next := congrArg Prod.snd hv
    have hcorrect : (decide (fault ≠ some (.read .verifyPin)) && V.verifyPin base.disk.pin pin) = true := congrArg Prod.fst hv
    rw [Bool.and_eq_true, hq.disk] at hcorrect
    exact hacc next (hnext ▸ hnoted _) hcorrect.2

theorem ensureLoaded_quiet (hq : s.Quiet base) (pin : Bytes) : ensureLoaded fault pin base = ensureLoaded fault pin s := by
  rw [ensureLoaded, ensureLoaded, hq.loaded, hq.disk]

theorem quiet_loaded {key : V.Key} (hq : s.Quiet base) : { s with loaded := some key }.Quiet { base with loaded := some key } :=
  ⟨hq.disk, rfl, hq.sessionToken, hq.issued, hq.devNoAuth, hq.unlocked⟩

theorem setup_access : Access fault r draw s (setup fault r draw s) := by
  refine access_guarded fun _ => ?_
  rcases hp : pinExists fault s with e | exists'
  · exact .quiet (.refl s)
  · cases exists' with
    | true => exact .quiet (.refl s)
    | false =>
      refine .unset ?_
      rw [pinExists] at hp
      split at hp
      · cases hp
      · simpa using Except.ok.inj hp

theorem unlock_access : Access fault r draw s (unlock fault r draw s) := by
  refine access_limited fun base _ _ hq => ?_
  cases hpin : bodyField "pin" 5 r.body with
  | none => exact .quiet hq
  | some pin =>
    dsimp only
    cases pinExists fault base with
    | error e => exact .quiet hq
    | ok found =>
      cases found with
      | false => exact .quiet hq
      | true =>
        refine access_verifyPin hq (fun base hq => .quiet (hq.trans (quiet_record _ _))) fun base hq hv => ?_
        cases hkey : ensureLoaded fault pin base with
        | error e => exact .quiet hq
        | ok key =>
          have hverified : Verified fault r s pin key := ⟨bodyField_part hpin, hv, ensureLoaded_quiet hq pin ▸ hkey⟩
          dsimp only
          split
          · exact .loaded hverified (quiet_loaded hq)
          · split
            · rename_i heq
              have hstate := congrArg Prod.snd heq
              exact .session hverified (quiet_loaded hq) (hstate ▸ quiet_clear _)
            · exact .session hverified (quiet_loaded hq) (.refl _)

theorem requestOtp_access : Access fault r draw s (requestOtp r draw s) := by
  refine access_limited fun base _ _ hq => ?_
  cases bodyField "email" 8 r.body with
  | none => exact .quiet (hq.trans (quiet_record _ _))
  | some email =>
    cases draw.otpWord with
    | none => exact .quiet (hq.trans (quiet_record _ _))
    | some word => exact .quiet ⟨hq.disk, hq.loaded, hq.sessionToken, hq.issued, hq.devNoAuth, hq.unlocked⟩

theorem verifyOtp_access : Access fault r draw s (verifyOtp r draw s) := by
  refine access_limited fun base _ _ hq => ?_
  cases bodyField "email" 8 r.body with
  | none => exact .quiet hq
  | some email =>
    cases bodyField "code" 7 r.body with
    | none => exact .quiet hq
    | some code =>
      dsimp only
      split
      · exact .quiet ⟨hq.disk, hq.loaded, hq.sessionToken, hq.issued, hq.devNoAuth, hq.unlocked⟩
      · exact .quiet ⟨hq.disk, hq.loaded, hq.sessionToken, hq.issued, hq.devNoAuth, hq.unlocked⟩

theorem recover_access (he : r.endpoint = .recover) : Access fault r draw s (recover fault r draw s) := by
  refine access_limited fun base hsafe hrate hq => ?_
  cases hm : bodyField "mnemonic" 10 r.body with
  | none => exact .quiet hq
  | some mnemonic =>
    cases hp : bodyField "new_pin" 9 r.body with
    | none => exact .quiet hq
    | some newPin =>
      dsimp only
      split
      · exact .quiet hq
      · rename_i hlong
        split
        · exact .quiet hq
        · rename_i hvalid
          exact .recovered ⟨he, hsafe, hrate, hm, hp, Nat.le_of_not_lt hlong, by simpa using hvalid⟩ hq

theorem encryptWallet_access (he : r.endpoint = .encryptWallet) : Access fault r draw s (encryptWallet fault r draw s) := by
  refine access_guarded fun _ => ?_
  cases hpin : bodyField "pin" 5 r.body with
  | none => exact .quiet (.refl s)
  | some pin =>
    dsimp only
    split
    · exact .quiet (.refl s)
    · cases pinExists fault s with
      | error e => exact .quiet (.refl s)
      | ok found =>
        cases found with
        | false => exact .quiet (.refl s)
        | true =>
          refine access_verifyPin (.refl s) (fun base hq => .quiet hq) fun base hq hv => ?_
          split
          · exact .quiet hq
          · cases hkey : ensureLoaded fault pin base with
            | error e => exact .quiet hq
            | ok key =>
              exact .encrypted he ⟨bodyField_part hpin, hv, ensureLoaded_quiet hq pin ▸ hkey⟩ (quiet_loaded hq)

theorem changePin_access (he : r.endpoint = .changePin) : Access fault r draw s (changePin fault r draw s) := by
  refine access_guarded fun _ => ?_
  cases hold : bodyField "old_pin" 10 r.body with
  | none => exact .quiet (.refl s)
  | some oldPin =>
    cases bodyField "new_pin" 10 r.body with
    | none => exact .quiet (.refl s)
    | some newPin =>
      dsimp only
      split
      · exact .quiet (.refl s)
      · split
        · exact .quiet (.refl s)
        · refine access_verifyPin (.refl s) (fun base hq => .quiet hq) fun base hq hv => ?_
          cases hkey : ensureLoaded fault oldPin base with
          | error e => exact .quiet hq
          | ok key =>
            exact .changed he ⟨bodyField_part hold, hv, ensureLoaded_quiet hq oldPin ▸ hkey⟩ (quiet_loaded hq)

theorem handle_access (fault : Option AuthFault) (r : AuthRequest) (draw : Draw V) (s : AuthState V) :
    Access fault r draw s (s.handle fault r draw) := by
  rw [handle]
  cases he : r.endpoint with
  | autoUnlock =>
    show Access fault r draw s (autoUnlock r s)
    rw [autoUnlock]
    split
    · exact .quiet ⟨rfl, rfl, rfl, rfl, rfl, fun _ => rfl⟩
    · exact .quiet (.refl s)
  | status => exact .quiet (.refl s)
  | setup => exact setup_access
  | unlock => exact unlock_access
  | requestOtp => exact requestOtp_access
  | verifyOtp => exact verifyOtp_access
  | recover => exact recover_access he
  | encryptWallet => exact encryptWallet_access he
  | changePin => exact changePin_access he

/-! ## Who is authenticated -/

theorem token_of_isAuthenticated {cookie : Bytes} (hdev : s.devNoAuth = false) (h : s.isAuthenticated cookie = true) :
    s.sessionToken ≠ [] ∧ s.sessionToken <:+: cookie := by
  rw [isAuthenticated, if_neg (by simp [hdev])] at h
  split at h
  · cases h
  · rename_i hset
    simp only [Bool.or_eq_true, not_or, List.isEmpty_iff] at hset
    dsimp only at h
    cases hfound : suffixFrom (ascii "caesar_session=" ++ s.sessionToken) cookie with
    | none =>
      rw [hfound] at h
      cases h
    | some found =>
      have hneedle : ascii "caesar_session=" ++ s.sessionToken <:+: cookie :=
        (suffixFrom_starts hfound).isInfix.trans (suffixFrom_suffix hfound).isInfix
      exact ⟨hset.1.2, (List.suffix_append _ _).isInfix.trans hneedle⟩

theorem isAuthenticated_own (hu : s.unlocked = true) (ht : s.sessionToken ≠ []) :
    s.isAuthenticated (ascii "caesar_session=" ++ s.sessionToken) = true := by
  have hcookie : ascii "caesar_session=" ++ s.sessionToken ≠ [] := by simp [ht]
  rw [isAuthenticated]
  split
  · rfl
  · rw [if_neg (by simp [hu, ht])]
    simp [suffixFrom_here List.prefix_rfl]

/-- A cookie that the clients of this run can have made: the session token is in it only if it was sent to them. -/
def Formable (s : AuthState V) (cookie : Bytes) : Prop :=
  s.sessionToken ≠ [] → s.sessionToken <:+: cookie → s.sessionToken ∈ s.issued

/-- The session token was sent to the clients, and it opens the wallet. -/
structure TakenOver (s : AuthState V) : Prop where
  unlocked : s.unlocked = true
  token : s.sessionToken ≠ []
  issued : s.sessionToken ∈ s.issued
  pin : s.disk.pin ≠ none

theorem TakenOver.quiet (h : s.TakenOver) (hq : s.Quiet after) : after.TakenOver :=
  ⟨hq.unlocked h.unlocked, hq.sessionToken ▸ h.token, hq.sessionToken ▸ hq.issued ▸ h.issued, hq.disk ▸ h.pin⟩

theorem TakenOver.authenticated (h : s.TakenOver) : ∃ cookie, s.Formable cookie ∧ s.isAuthenticated cookie = true :=
  ⟨_, fun _ _ => h.issued, isAuthenticated_own h.unlocked h.token⟩

theorem token_ne_nil (token : Hash256) : bytesToHex token.1 ≠ [] := by
  intro h
  have hlen := bytesToHex_length token.1
  rw [h, token.2] at hlen
  cases hlen

theorem openSession_takenOver (ops : List FileOp) (mnemonic address : Option Bytes) {disk : Disk}
    (hrun : Script.perform files none (ops ++ [.writeSession (bytesToHex draw.token.1)]) base.disk = (none, disk))
    (hpin : disk.pin ≠ none) : (openSession none draw ops mnemonic address base).2.TakenOver := by
  have hscript : AuthFault.script none = none := rfl
  rw [openSession, persist, hscript, hrun]
  exact ⟨rfl, token_ne_nil draw.token, List.mem_cons_self, hpin⟩

theorem replaceKey_takenOver (key : V.Key) (pin : Bytes) (mnemonic : Option Bytes) :
    (replaceKey none draw key pin mnemonic base).2.TakenOver :=
  openSession_takenOver _ _ _ rfl (Option.some_ne_none _)

/-- Nobody is locked out again: every later token is sent to the client that asked for it. -/
theorem TakenOver.handle (h : s.TakenOver) (r : AuthRequest) (draw : Draw V) : (s.handle none r draw).2.TakenOver := by
  have hloaded (key : V.Key) : TakenOver { s with loaded := some key } := ⟨h.unlocked, h.token, h.issued, h.pin⟩
  have haccess := handle_access none r draw s
  generalize s.handle none r draw = result at haccess
  cases haccess with
  | quiet hq => exact h.quiet hq
  | unset hpin => exact absurd hpin h.pin
  | loaded _ hq => exact (hloaded _).quiet hq
  | session _ hb hq =>
    have hpin := h.pin
    rw [← hb.disk] at hpin
    exact (openSession_takenOver [] none none rfl hpin).quiet hq
  | encrypted _ _ hb =>
    have hbase := (hloaded _).quiet hb
    exact ⟨hbase.unlocked, hbase.token, hbase.issued, hbase.pin⟩
  | changed _ _ hb =>
    have hbase := (hloaded _).quiet hb
    exact ⟨hbase.unlocked, hbase.token, hbase.issued, Option.some_ne_none _⟩
  | recovered _ _ => exact replaceKey_takenOver _ _ _

theorem handle_recovers {mnemonic newPin : Bytes} (h : Recovers r draw s mnemonic newPin) :
    (s.handle none r draw).2.TakenOver := by
  rw [handle, h.endpoint]
  show (recover none r draw s).2.TakenOver
  rw [recover, limited, guarded, if_neg (by simp [h.origin])]
  rcases hcheck : s.checkRateLimit r.clientIp draw.now with ⟨_ | _, base⟩
  · have hrate := h.rate
    rw [hcheck] at hrate
    cases hrate
  · simp only [h.sentMnemonic, h.sentPin]
    rw [if_neg (Nat.not_lt.mpr h.long), if_neg (by simp [h.valid])]
    exact replaceKey_takenOver _ _ _

/-! ## Runs without the PIN -/

/-- No part of the body of the event's request fits the PIN file. -/
def Clueless (pinFile : Option Bytes) (event : AuthEvent V) : Prop :=
  ∀ part, part <:+: event.request.body → V.verifyPin pinFile part = false

/-- A request without the PIN recovers, or changes nothing. -/
theorem Quiet.step {event : AuthEvent V} (hpin : s.disk.pin ≠ none) (hclueless : Clueless s.disk.pin event) :
    s.Quiet (s.step event) ∨ ∃ mnemonic newPin, Recovers event.request event.draw s mnemonic newPin := by
  have haccess := handle_access event.fault event.request event.draw s
  have hnone : ∀ {pin key}, ¬ Verified event.fault event.request s pin key := by
    intro pin key hv
    have hfits := hv.fits
    rw [hclueless pin hv.sent] at hfits
    cases hfits
  rw [AuthState.step]
  generalize s.handle event.fault event.request event.draw = result at haccess
  cases haccess with
  | quiet hq => exact Or.inl hq
  | unset hunset => exact absurd hunset hpin
  | loaded hv _ => exact (hnone hv).elim
  | session hv _ _ => exact (hnone hv).elim
  | encrypted _ hv _ => exact (hnone hv).elim
  | changed _ hv _ => exact (hnone hv).elim
  | recovered hr _ => exact Or.inr ⟨_, _, hr⟩

def SomeRecovers (events : List (AuthEvent V)) (s : AuthState V) : Prop :=
  ∃ before event rest mnemonic newPin, events = before ++ event :: rest ∧
    Recovers event.request event.draw (s.run before) mnemonic newPin

theorem run_takenOver : ∀ (events : List (AuthEvent V)) {s : AuthState V}, s.TakenOver → (∀ e ∈ events, e.fault = none) →
    (s.run events).TakenOver
  | [], _, h, _ => h
  | event :: rest, s, h, hfaults => by
    have hstep : (s.step event).TakenOver := by
      rw [AuthState.step, hfaults event List.mem_cons_self]
      exact h.handle _ _
    exact run_takenOver rest hstep fun e he => hfaults e (List.mem_cons_of_mem _ he)

theorem run_quiet : ∀ {events : List (AuthEvent V)} {s : AuthState V}, s.disk.pin ≠ none → (∀ e ∈ events, Clueless s.disk.pin e) →
    ¬ SomeRecovers events s → s.Quiet (s.run events)
  | [], s, _, _, _ => .refl s
  | event :: rest, s, hpin, hclueless, hnone => by
    rcases Quiet.step hpin (hclueless event List.mem_cons_self) with hq | ⟨mnemonic, newPin, hr⟩
    · refine hq.trans (run_quiet (hq.disk ▸ hpin) (fun e he => ?_) fun hsome => hnone ?_)
      · rw [hq.disk]
        exact hclueless e (List.mem_cons_of_mem _ he)
      · obtain ⟨before, e, after, mnemonic, newPin, rfl, hr⟩ := hsome
        exact ⟨event :: before, e, after, mnemonic, newPin, rfl, hr⟩
    · exact absurd ⟨[], event, rest, mnemonic, newPin, rfl, hr⟩ hnone

/-- A run of requests without the PIN, none of whose file operations fails: files and key stay and nobody is authenticated
with what the replies had, exactly when none of the requests recovers. -/
theorem wallet_kept_iff_no_recovery (s : AuthState V) (events : List (AuthEvent V)) (hdev : s.devNoAuth = false)
    (hpin : s.disk.pin ≠ none) (hissued : s.issued = []) (hfaults : ∀ e ∈ events, e.fault = none)
    (hclueless : ∀ e ∈ events, Clueless s.disk.pin e) :
    ((s.run events).loaded = s.loaded ∧ (s.run events).disk = s.disk ∧
      ∀ cookie, (s.run events).Formable cookie → (s.run events).isAuthenticated cookie = false) ↔
      ¬ SomeRecovers events s := by
  refine ⟨fun h hsome => ?_, fun hnone => ?_⟩
  · obtain ⟨before, event, rest, mnemonic, newPin, rfl, hr⟩ := hsome
    have hrun : (s.run (before ++ event :: rest)) = ((s.run before).step event).run rest := List.foldl_append
    have hstep : ((s.run before).step event).TakenOver := by
      rw [AuthState.step, hfaults event (List.mem_append_right _ List.mem_cons_self)]
      exact handle_recovers hr
    have htaken := run_takenOver rest hstep fun e he => hfaults e (List.mem_append_right _ (List.mem_cons_of_mem _ he))
    rw [← hrun] at htaken
    obtain ⟨cookie, hformable, hauth⟩ := htaken.authenticated
    rw [h.2.2 cookie hformable] at hauth
    cases hauth
  · have hq := run_quiet hpin hclueless hnone
    refine ⟨hq.loaded, hq.disk, fun cookie hformable => ?_⟩
    by_contra hauth
    obtain ⟨hne, hin⟩ := token_of_isAuthenticated (hq.devNoAuth.trans hdev) (Bool.eq_true_of_not_eq_false hauth)
    have hmem := hformable hne hin
    rw [hq.issued, hissued] at hmem
    exact List.not_mem_nil hmem

/-- A stand-in for the libraries that tells two PINs apart from all others. -/
abbrev toyVaultLib : VaultLib where
  Key := UInt8
  pbkdf2 _ pin _ := ⟨List.replicate 32 (if pin = ascii "1234" then 1 else if pin = ascii "5678" then 2 else 3), by simp⟩
  gcmEncrypt key _ plaintext := (key.1.take 16, plaintext)
  gcmDecrypt key _ tag ciphertext := if tag = key.1.take 16 then some ciphertext else none
  pem key := List.replicate 60 45 ++ [key]
  readPem content := if content.take 60 = List.replicate 60 45 then content[60]? else none
  address key := [67, 90, key]
  entropyToMnemonic entropy := entropy
  validateMnemonic mnemonic := 8 ≤ mnemonic.length
  walletFromMnemonic mnemonic := UInt8.ofNat mnemonic.length

def toyDraw (now : Nat) : Draw toyVaultLib where
  now := now
  unix := ⟨0, by decide⟩
  token := ⟨List.replicate 32 5, by decide⟩
  entropy := ascii "legal winner"
  pinSalt := ⟨List.replicate 16 0, by decide⟩
  walletSalt := ⟨List.replicate 16 0, by decide⟩
  walletIv := ⟨List.replicate 12 0, by decide⟩
  otpWord := some 0
  freshKey := 0

def toyOwner : AuthState toyVaultLib where
  disk :=
    { wallet := some (toyVaultLib.encrypt (ascii "1234") (toyDraw 0).walletSalt (toyDraw 0).walletIv (toyVaultLib.pem 7))
      temp := none
      pin := some (toyVaultLib.pinHash (ascii "1234") (toyDraw 0).pinSalt)
      session := some (ascii "secret") }
  loaded := some 7
  walletPreexisting := true
  unlocked := true
  sessionToken := ascii "secret"
  failures := .empty
  otp := ⟨.empty, none⟩
  pendingEmail := []
  devNoAuth := false
  trace := []
  issued := []

def toyRequest (endpoint : Endpoint) (body : String) : AuthRequest :=
  { endpoint := endpoint, remoteAddr := ascii "192.0.2.1", body := ascii body }

def guessUnlock : AuthEvent toyVaultLib := ⟨toyRequest .unlock "\x7b\"pin\":\"9999\"\x7d", toyDraw 0, none⟩

def recoverOther : AuthEvent toyVaultLib :=
  ⟨toyRequest .recover
    "\x7b\"mnemonic\":\"zoo zoo zoo zoo zoo zoo zoo zoo zoo zoo zoo wrong\",\"new_pin\":\"5678\"\x7d", toyDraw 0, none⟩

theorem toyOwner_pin {part : Bytes} (h : toyVaultLib.verifyPin toyOwner.disk.pin part = true) : part = ascii "1234" := by
  by_contra hne
  have hhash : toyVaultLib.hashPin part (List.replicate 16 0) = toyVaultLib.hashPin (ascii "1234") (List.replicate 16 0) :=
    toyVaultLib.verifyPin_pinHash.mp h
  by_cases hother : part = ascii "5678"
  · subst hother
    exact absurd hhash (by decide +kernel)
  · simp only [VaultLib.hashPin, if_neg hne, if_neg hother] at hhash
    exact absurd hhash (by decide +kernel)

theorem clueless_of_absent {event : AuthEvent toyVaultLib} (h : ¬ ascii "1234" <:+: event.request.body) :
    Clueless toyOwner.disk.pin event := by
  intro part hpart
  by_contra htrue
  exact h (toyOwner_pin (Bool.eq_true_of_not_eq_false htrue) ▸ hpart)

theorem wallet_kept_toy : (toyOwner.run [guessUnlock]).loaded = toyOwner.loaded ∧
    (toyOwner.run [guessUnlock]).disk = toyOwner.disk ∧
    ∀ cookie, (toyOwner.run [guessUnlock]).Formable cookie → (toyOwner.run [guessUnlock]).isAuthenticated cookie = false := by
  have hclueless : ∀ e ∈ [guessUnlock], Clueless toyOwner.disk.pin e := by
    rw [List.forall_mem_singleton]
    exact clueless_of_absent (by decide +kernel)
  refine (wallet_kept_iff_no_recovery toyOwner [guessUnlock] rfl (Option.some_ne_none _) rfl (by simp [guessUnlock])
    hclueless).mpr ?_
  rintro ⟨before, event, rest, mnemonic, newPin, hevents, hrecovers⟩
  have hmem : event ∈ [guessUnlock] := hevents ▸ List.mem_append_right _ List.mem_cons_self
  rw [List.mem_singleton.mp hmem] at hrecovers
  exact absurd hrecovers.endpoint (by decide)

/-- Any valid mnemonic does: the key and the PIN are replaced, and the reply has the token of the new session. -/
theorem wallet_taken_over : ¬ ascii "1234" <:+: recoverOther.request.body ∧
    (toyOwner.run [recoverOther]).loaded ≠ toyOwner.loaded ∧
    toyVaultLib.unlockWithPin (toyOwner.run [recoverOther]).disk.wallet (ascii "5678") = .ok 49 ∧
    toyVaultLib.verifyPin (toyOwner.run [recoverOther]).disk.pin (ascii "1234") = false ∧
    toyVaultLib.verifyPin (toyOwner.run [recoverOther]).disk.pin (ascii "5678") = true ∧
    (toyOwner.handle none recoverOther.request recoverOther.draw).1 =
      .session (bytesToHex (toyDraw 0).token.1) none (some [67, 90, 49]) ∧
    (toyOwner.run [recoverOther]).isAuthenticated
      (ascii "caesar_session=" ++ bytesToHex (toyDraw 0).token.1) = true := by
  decide +kernel

end AuthState

end Caesar
