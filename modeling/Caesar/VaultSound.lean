import Caesar.AuthSound

/-!
# When PIN file and wallet file agree

The wallet file is replaced by a rename, the PIN file is written after it. Some
PIN fits both files as long as no request ends between the two, and no copy of
the wallet is renamed that was not written whole.
-/

namespace Caesar

open Codec Text

/-! ## The libraries -/

namespace Vault

variable (V : Vault)

theorem unlock_encrypt (pin : Bytes) (salt : Salt) (iv : Iv) (key : V.Key) :
    V.unlockWithPin (some (V.encrypt pin salt iv (V.pem key))) pin = .ok key := by
  obtain ⟨tag, ciphertext, hsealed⟩ : ∃ tag ciphertext,
      V.gcmEncrypt (V.deriveKey pin salt.1) iv.1 (V.pem key) = (tag, ciphertext) := ⟨_, _, rfl⟩
  have htag : tag.length = 16 := by
    have hlen := V.tag_length (V.deriveKey pin salt.1) iv.1 (V.pem key)
    rwa [hsealed] at hlen
  have htext : ciphertext.length = (V.pem key).length := by
    have hlen := V.ciphertext_length (V.deriveKey pin salt.1) iv.1 (V.pem key)
    rwa [hsealed] at hlen
  have hopen : V.gcmDecrypt (V.deriveKey pin salt.1) iv.1 tag ciphertext = some (V.pem key) := by
    have hdec := V.decrypt_encrypt (V.deriveKey pin salt.1) iv.1 (V.pem key)
    rwa [hsealed] at hdec
  have hcontent : V.encrypt pin salt iv (V.pem key) = salt.1 ++ (iv.1 ++ (tag ++ ciphertext)) := by
    rw [VaultLib.encrypt, hsealed]
  have hsalt : (V.encrypt pin salt iv (V.pem key)).take 16 = salt.1 := by
    rw [hcontent, List.take_left' salt.2]
  have h16 : (V.encrypt pin salt iv (V.pem key)).drop 16 = iv.1 ++ (tag ++ ciphertext) := by
    rw [hcontent, List.drop_left' salt.2]
  have h28 : (V.encrypt pin salt iv (V.pem key)).drop 28 = tag ++ ciphertext := by
    rw [show 28 = 16 + 12 from rfl, ← List.drop_drop, h16, List.drop_left' iv.2]
  have h44 : (V.encrypt pin salt iv (V.pem key)).drop 44 = ciphertext := by
    rw [show 44 = 28 + 16 from rfl, ← List.drop_drop, h28, List.drop_left' htag]
  have hlen : ¬ (V.encrypt pin salt iv (V.pem key)).length < 44 := by
    rw [hcontent]
    simp only [List.length_append, salt.2, iv.2, htag]
    omega
  have hpem := V.pem_length key
  have hdecrypt : V.decrypt (some (V.encrypt pin salt iv (V.pem key))) pin = .ok (V.pem key) := by
    simp only [VaultLib.decrypt, hsalt, h16, h28, h44, List.take_left' iv.2, List.take_left' htag, hopen]
    rw [if_neg hlen, if_neg (by rw [List.isEmpty_iff, ← List.length_eq_zero_iff]; omega), if_neg (by omega)]
    rfl
  rw [VaultLib.unlockWithPin, bind_ok]
  exact ⟨V.pem key, hdecrypt, by rw [V.readPem_pem]; rfl⟩

end Vault

structure PinOpens (V : VaultLib) (d : Disk) (pin : Bytes) (key : V.Key) : Prop where
  fits : V.verifyPin d.pin pin = true
  opens : V.unlockWithPin d.wallet pin = .ok key

theorem PinOpens.of_same {V : VaultLib} {d after : Disk} {pin : Bytes} {key : V.Key} (h : PinOpens V d pin key)
    (hpin : after.pin = d.pin) (hwallet : after.wallet = d.wallet) : PinOpens V after pin key :=
  ⟨hpin ▸ h.fits, hwallet ▸ h.opens⟩

theorem PinOpens.deferred {V : Vault} {d : Disk} {pin : Bytes} {key : V.Key} (h : PinOpens V.toVaultLib d pin key)
    (fresh : V.Key) :
    V.loadOrDefer fresh d = (none, d) := by
  obtain ⟨plaintext, hdecrypt, -⟩ := bind_ok.mp h.opens
  cases hw : d.wallet with
  | none =>
    rw [hw] at hdecrypt
    exact absurd hdecrypt fail_ne_ok
  | some content =>
    rw [hw] at hdecrypt
    simp only [VaultLib.loadOrDefer, hw, V.sealed_not_pem content pin plaintext hdecrypt]

/-! ## The scripts -/

open Script (perform Fault Kind Halt)

/-- The fault leaves a script undisturbed that has so many operations, or keeps the old temporary file from being removed. -/
def Passes (length : Nat) (fault : Option Fault) : Prop :=
  ∀ f ∈ fault, length ≤ f.position ∨ f.position = 1 ∧ f.kind ≠ .stop

theorem replaceWallet_done (form : WalletForm) (content : Bytes) (d : Disk) :
    ∀ {fault : Option Fault}, Passes 8 fault → ∃ temp,
      perform files fault (replaceWallet form content) d = (none, { d with wallet := some content, temp := temp })
  | none, _ => ⟨none, rfl⟩
  | some ⟨1, .fail _⟩, _ => ⟨none, rfl⟩
  | some ⟨_ + 8, _⟩, _ => ⟨none, rfl⟩
  | some ⟨1, .stop⟩, h => by
    have hp := h _ rfl
    simp at hp
  | some ⟨0, _⟩, h | some ⟨2, _⟩, h | some ⟨3, _⟩, h | some ⟨4, _⟩, h | some ⟨5, _⟩, h | some ⟨6, _⟩, h | some ⟨7, _⟩, h => by
    have hp := h _ rfl
    simp at hp

/-- A fault before the rename ends the script and leaves both files, unless a write is not looked at. -/
theorem replaceWallet_early (form : WalletForm) (content : Bytes) (d : Disk) {position : Nat} {kind : Kind}
    (hearly : position ≤ 6) (hkind : kind = .stop ∨ position ≠ 1 ∧ position ≠ 3) : ∃ halt temp,
      perform files (some ⟨position, kind⟩) (replaceWallet form content) d = (some halt, { d with temp := temp }) ∧
        (kind = .stop → halt = .stopped) := by
  cases kind with
  | stop =>
    match position, hearly with
    | 0, _ | 1, _ | 2, _ | 3, _ | 4, _ | 5, _ | 6, _ => exact ⟨.stopped, _, rfl, fun _ => rfl⟩
  | fail done =>
    match position, hearly, hkind with
    | 1, _, h => simp at h
    | 3, _, h => simp at h
    | 0, _, _ | 4, _, _ | 5, _, _ | 6, _, _ => cases form <;> exact ⟨.threw _, _, rfl, nofun⟩
    | 2, _, _ => cases form <;> exact ⟨.threw _, _, rfl, nofun⟩

theorem replaceWallet_whole (form : WalletForm) (content : Bytes) (d : Disk) : ∀ {fault : Option Fault},
    (∀ f ∈ fault, f.position = 3 → f.kind = .stop) →
      (perform files fault (replaceWallet form content) d).2.pin = d.pin ∧
        ((perform files fault (replaceWallet form content) d).2.wallet = some content ∨
          (perform files fault (replaceWallet form content) d).2.wallet = d.wallet)
  | none, _ => ⟨rfl, Or.inl rfl⟩
  | some ⟨position, kind⟩, h => by
    by_cases hearly : position ≤ 6 ∧ (kind = .stop ∨ position ≠ 1 ∧ position ≠ 3)
    · obtain ⟨halt, temp, hrun, -⟩ := replaceWallet_early form content d hearly.1 hearly.2
      rw [hrun]
      exact ⟨rfl, Or.inr rfl⟩
    · by_cases hlast : position = 7
      · subst hlast
        cases kind <;> exact ⟨rfl, Or.inl rfl⟩
      · have hpasses : Passes 8 (some ⟨position, kind⟩) := by
          rintro f ⟨⟩
          have htorn := h _ rfl
          dsimp only at htorn ⊢
          by_cases hstop : kind = .stop
          · simp only [hstop, true_or, and_true] at hearly
            exact Or.inl (by omega)
          · have hne : position ≠ 3 := fun he => hstop (htorn he)
            simp only [hstop, false_or] at hearly
            by_cases hone : position = 1
            · exact Or.inr ⟨hone, hstop⟩
            · exact Or.inl (by omega)
        obtain ⟨temp, hrun⟩ := replaceWallet_done form content d hpasses
        rw [hrun]
        exact ⟨rfl, Or.inl rfl⟩

section
variable {V : Vault} (pin : Bytes) (pinSalt walletSalt : Salt) (iv : Iv) (key : V.Key)

def Closes (V : VaultLib) (pin : Bytes) (salt : Salt) (ops : List FileOp) : Prop :=
  ops = V.savePin pin salt ∨ ∃ token, ops = V.savePin pin salt ++ [.writeSession token]

variable {pin pinSalt walletSalt iv key}

theorem closes_done {ops : List FileOp} {d : Disk} (hops : Closes V.toVaultLib pin pinSalt ops) :
    ∀ {fault : Option Fault}, (∀ f ∈ fault, 2 ≤ f.position) →
      (perform files fault ops d).2.pin = some (V.pinHash pin pinSalt) ∧ (perform files fault ops d).2.wallet = d.wallet := by
  rcases hops with rfl | ⟨token, rfl⟩
  · intro fault h
    match fault, h with
    | none, _ => exact ⟨rfl, rfl⟩
    | some ⟨0, _⟩, h | some ⟨1, _⟩, h => exact absurd (h _ rfl) (by simp)
    | some ⟨2, .stop⟩, _ | some ⟨2, .fail _⟩, _ | some ⟨_ + 3, _⟩, _ => exact ⟨rfl, rfl⟩
  · intro fault h
    match fault, h with
    | none, _ => exact ⟨rfl, rfl⟩
    | some ⟨0, _⟩, h | some ⟨1, _⟩, h => exact absurd (h _ rfl) (by simp)
    | some ⟨2, .stop⟩, _ | some ⟨2, .fail _⟩, _ | some ⟨3, .stop⟩, _ | some ⟨3, .fail _⟩, _ | some ⟨_ + 4, _⟩, _ =>
      exact ⟨rfl, rfl⟩

theorem unlocks_new {d : Disk} (hpin : d.pin = some (V.pinHash pin pinSalt))
    (hwallet : d.wallet = some (V.encrypt pin walletSalt iv (V.pem key))) : PinOpens V.toVaultLib d pin key := by
  refine ⟨?_, ?_⟩
  · rw [hpin]
    exact V.verifyPin_pinHash.mpr rfl
  · rw [hwallet]
    exact V.unlock_encrypt pin walletSalt iv key

theorem reseal_done {ops : List FileOp} {d : Disk} {fault : Option Fault} (hops : Closes V.toVaultLib pin pinSalt ops)
    (hfault : Passes 10 fault) :
    PinOpens V.toVaultLib (perform files fault (V.saveEncrypted pin walletSalt iv key ++ ops) d).2 pin key := by
  have hpasses : Passes 8 fault := fun f hf => (hfault f hf).imp_left (le_trans (by decide))
  have hrest : ∀ f ∈ Script.after 8 fault, 2 ≤ f.position := by
    intro f hf
    obtain ⟨g, hg, hlate, rfl⟩ := Script.mem_after.mp hf
    rcases hfault g hg with hten | ⟨hone, -⟩
    · exact Nat.le_sub_of_add_le hten
    · omega
  obtain ⟨temp, hrun⟩ := replaceWallet_done .sealed (V.encrypt pin walletSalt iv (V.pem key)) d hpasses
  rw [VaultLib.saveEncrypted, Script.perform_append, hrun]
  have hclosed := closes_done (d := { d with wallet := some (V.encrypt pin walletSalt iv (V.pem key)), temp := temp }) hops hrest
  exact unlocks_new hclosed.1 hclosed.2

theorem reseal_early (ops : List FileOp) {d : Disk} {position : Nat} {kind : Kind} (hearly : position ≤ 6)
    (hkind : kind = .stop ∨ position ≠ 1 ∧ position ≠ 3) :
    (perform files (some ⟨position, kind⟩) (V.saveEncrypted pin walletSalt iv key ++ ops) d).2.pin = d.pin ∧
      (perform files (some ⟨position, kind⟩) (V.saveEncrypted pin walletSalt iv key ++ ops) d).2.wallet = d.wallet := by
  obtain ⟨halt, temp, hrun, -⟩ :=
    replaceWallet_early .sealed (V.encrypt pin walletSalt iv (V.pem key)) d hearly hkind
  rw [VaultLib.saveEncrypted, Script.perform_append, hrun]
  exact ⟨rfl, rfl⟩

theorem replaceKey_done {ops : List FileOp} {d : Disk} {fault : Option Fault} (hops : Closes V.toVaultLib pin pinSalt ops)
    (hfault : ∀ f ∈ fault, 18 ≤ f.position ∨ (f.position = 1 ∨ f.position = 9) ∧ f.kind ≠ .stop) :
    PinOpens V.toVaultLib
      (perform files fault (V.save key ++ (V.saveEncrypted pin walletSalt iv key ++ ops)) d).2 pin key := by
  have hpasses : Passes 8 fault := by
    intro f hf
    rcases hfault f hf with hlate | ⟨hone | hnine, hkind⟩
    · exact Or.inl (by omega)
    · exact Or.inr ⟨hone, hkind⟩
    · exact Or.inl (by omega)
  have hrest : Passes 10 (Script.after 8 fault) := by
    intro f hf
    obtain ⟨g, hg, hlate, rfl⟩ := Script.mem_after.mp hf
    rcases hfault g hg with h18 | ⟨hone | hnine, hkind⟩
    · exact Or.inl (Nat.le_sub_of_add_le h18)
    · omega
    · exact Or.inr ⟨by simp [hnine], hkind⟩
  obtain ⟨temp, hrun⟩ := replaceWallet_done .plain (V.pem key) d hpasses
  rw [VaultLib.save, Script.perform_append, hrun]
  exact reseal_done hops hrest

end

theorem session_same (token : Bytes) (d : Disk) : ∀ fault : Option Fault,
    (perform files fault [.writeSession token] d).2.pin = d.pin ∧
      (perform files fault [.writeSession token] d).2.wallet = d.wallet
  | none | some ⟨0, .stop⟩ | some ⟨0, .fail _⟩ | some ⟨_ + 1, _⟩ => ⟨rfl, rfl⟩

/-! ## Faults -/

namespace AuthFault

def operations : Endpoint → List FileOp
  | .encryptWallet => replaceWallet .sealed []
  | .changePin => replaceWallet .sealed [] ++ [.openPin, .writePin [], .chmodPin]
  | .recover =>
    replaceWallet .plain [] ++ replaceWallet .sealed [] ++ [.openPin, .writePin [], .chmodPin, .writeSession []]
  | _ => []

def renames : FileOp → Bool
  | .renameTemp _ => true
  | _ => false

def writesTemp : FileOp → Bool
  | .writeTemp _ _ => true
  | _ => false

def writesPin : FileOp → Bool
  | .writePin _ => true
  | _ => false

/-- The fault does not part the files. A failed write of the copy of the wallet does, as nobody looks at it, and so does
everything between the rename of the copy and the new hash. A recovery has changed the key in memory before it starts, so
nothing may fail before its new hash, except the removal of an old copy. -/
def harmless (endpoint : Endpoint) : Option AuthFault → Bool
  | some (.write ⟨position, kind⟩) =>
    let ops := operations endpoint
    let renamed := (ops.take position).any renames
    let closed := (ops.take position).any writesPin
    match endpoint, kind with
    | .encryptWallet, .fail _ => !ops[position]?.any writesTemp
    | .changePin, .stop => !renamed || closed
    | .changePin, .fail _ => !renamed && !ops[position]?.any writesTemp || closed
    | .recover, .stop => !renamed || closed
    | .recover, .fail _ => ops[position]? = some .removeTemp || closed
    | _, _ => true
  | _ => true

theorem harmless_encryptWallet {position : Nat} {kind : Kind}
    (h : harmless .encryptWallet (some (.write ⟨position, kind⟩)) = true) (h3 : position = 3) : kind = .stop := by
  subst h3
  cases kind with
  | stop => rfl
  | fail done => exact absurd h Bool.false_ne_true

theorem harmless_changePin {position : Nat} {kind : Kind} (h : harmless .changePin (some (.write ⟨position, kind⟩)) = true) :
    10 ≤ position ∨ position ≤ 6 ∧ (kind = .stop ∨ position ≠ 3) := by
  cases kind with
  | stop =>
    match position, h with
    | 0, _ | 1, _ | 2, _ | 3, _ | 4, _ | 5, _ | 6, _ => exact Or.inr ⟨by decide, Or.inl rfl⟩
    | 7, h | 8, h | 9, h => exact absurd h Bool.false_ne_true
    | _ + 10, _ => exact Or.inl (Nat.le_add_left _ _)
  | fail done =>
    match position, h with
    | 0, _ | 1, _ | 2, _ | 4, _ | 5, _ | 6, _ => exact Or.inr ⟨by decide, Or.inr (by decide)⟩
    | 3, h | 7, h | 8, h | 9, h => exact absurd h Bool.false_ne_true
    | _ + 10, _ => exact Or.inl (Nat.le_add_left _ _)

theorem harmless_recover {position : Nat} {kind : Kind} (h : harmless .recover (some (.write ⟨position, kind⟩)) = true) :
    (18 ≤ position ∨ (position = 1 ∨ position = 9) ∧ kind ≠ .stop) ∨ position ≤ 6 ∧ kind = .stop := by
  cases kind with
  | stop =>
    match position, h with
    | 0, _ | 1, _ | 2, _ | 3, _ | 4, _ | 5, _ | 6, _ => exact Or.inr ⟨by decide, rfl⟩
    | 7, h | 8, h | 9, h | 10, h | 11, h | 12, h | 13, h | 14, h | 15, h | 16, h | 17, h => exact absurd h Bool.false_ne_true
    | _ + 18, _ => exact Or.inl (Or.inl (Nat.le_add_left _ _))
  | fail done =>
    match position, h with
    | 1, _ | 9, _ => exact Or.inl (Or.inr ⟨by decide, nofun⟩)
    | 0, h | 2, h | 3, h | 4, h | 5, h | 6, h | 7, h | 8, h | 10, h | 11, h | 12, h | 13, h | 14, h | 15, h | 16, h | 17, h =>
      exact absurd h Bool.false_ne_true
    | _ + 18, _ => exact Or.inl (Or.inl (Nat.le_add_left _ _))

end AuthFault

/-! ## The invariant -/

namespace AuthState

variable {V : Vault} {s base after : AuthState V.toVaultLib} {fault : Option AuthFault} {r : AuthRequest}
  {draw : Draw V.toVaultLib}

/-- Some PIN fits both files, and it unlocks the key that is loaded. -/
def Agrees (s : AuthState V.toVaultLib) : Prop := ∃ pin key, PinOpens V.toVaultLib s.disk pin key ∧ ∀ k ∈ s.loaded, k = key

theorem Agrees.of_same (h : s.Agrees) (hdisk : after.disk = s.disk) (hloaded : after.loaded = s.loaded) : after.Agrees := by
  obtain ⟨pin, key, hunlocks, hkey⟩ := h
  exact ⟨pin, key, hdisk ▸ hunlocks, hloaded ▸ hkey⟩

theorem agrees_loaded {pin : Bytes} {key : V.Key} (h : PinOpens V.toVaultLib s.disk pin key) (hloaded : s.loaded = some key) :
    s.Agrees := by
  refine ⟨pin, key, h, fun k hk => ?_⟩
  rw [hloaded] at hk
  exact (Option.mem_some.mp hk).symm

theorem agrees_restart {pin : Bytes} {key : V.Key} (h : PinOpens V.toVaultLib s.disk pin key) (fresh : V.Key) :
    (s.restart fresh).Agrees := by
  have hdefer := h.deferred fresh
  refine ⟨pin, key, ?_, ?_⟩
  · show PinOpens V.toVaultLib (V.loadOrDefer fresh s.disk).2 pin key
    rw [hdefer]
    exact h
  · show ∀ k ∈ (V.loadOrDefer fresh s.disk).1, k = key
    rw [hdefer]
    exact nofun

theorem Agrees.verified {pin : Bytes} {key : V.Key} (h : s.Agrees) (hv : Verified fault r s pin key) :
    ∃ pin, PinOpens V.toVaultLib s.disk pin key := by
  obtain ⟨old, oldKey, hunlocks, hloaded⟩ := h
  have hkey := hv.unlocks
  rw [ensureLoaded] at hkey
  cases hl : s.loaded with
  | some k =>
    rw [hl] at hkey
    rw [← pure_ok.mp hkey, hloaded k hl]
    exact ⟨old, hunlocks⟩
  | none =>
    rw [hl] at hkey
    obtain ⟨-, hopens⟩ := ite_error_ok.mp hkey
    exact ⟨pin, hv.fits, hopens⟩

theorem persist_agrees {ops : List FileOp} {rest : AuthState V.toVaultLib → AuthReply × AuthState V.toVaultLib} (pin : Bytes)
    {key unlocked : V.Key} (hloaded : base.loaded = some key)
    (hrest : ∀ s, (rest s).2.disk = s.disk ∧ (rest s).2.loaded = s.loaded)
    (hunlocks : PinOpens V.toVaultLib (perform files (AuthFault.script fault) ops base.disk).2 pin unlocked)
    (hkey : (perform files (AuthFault.script fault) ops base.disk).1 = some .stopped ∨ unlocked = key) :
    (persist fault draw ops base rest).2.Agrees := by
  rw [persist]
  rcases hrun : perform files (AuthFault.script fault) ops base.disk with ⟨_ | _ | _, disk⟩
  · rw [hrun] at hunlocks hkey
    obtain rfl := hkey.resolve_left (Option.some_ne_none _).symm
    obtain ⟨hdisk, hl⟩ := hrest { base with disk := disk }
    exact (agrees_loaded (s := { base with disk := disk }) hunlocks hloaded).of_same hdisk hl
  · rw [hrun] at hunlocks hkey
    obtain rfl := hkey.resolve_left (by simp)
    exact agrees_loaded (s := { base with disk := disk }) hunlocks hloaded
  · rw [hrun] at hunlocks
    exact agrees_restart (s := { base with disk := disk }) hunlocks _

theorem encrypted_agrees {pin : Bytes} {key : V.Key} (h : s.Agrees) (hv : Verified fault r s pin key)
    (hb : { s with loaded := some key }.Quiet base) (hf : AuthFault.harmless .encryptWallet fault = true) :
    (persist fault draw (V.saveEncrypted pin draw.walletSalt draw.walletIv key) base fun s => (.encrypted, s)).2.Agrees := by
  have hwrite : ∀ f ∈ AuthFault.script fault, f.position = 3 → f.kind = .stop := by
    intro f hmem h3
    match fault, hmem, hf with
    | some (.write ⟨_, _⟩), rfl, hf => exact AuthFault.harmless_encryptWallet hf h3
  obtain ⟨hpin, hwallet⟩ := replaceWallet_whole .sealed (V.encrypt pin draw.walletSalt draw.walletIv (V.pem key)) base.disk hwrite
  rw [hb.disk] at hpin hwallet
  rcases hwallet with hwallet | hwallet
  · refine persist_agrees pin hb.loaded (fun _ => ⟨rfl, rfl⟩) ⟨?_, ?_⟩ (Or.inr rfl)
    · rw [hb.disk]
      exact hpin ▸ hv.fits
    · rw [hb.disk]
      exact hwallet ▸ V.unlock_encrypt pin _ _ key
  · obtain ⟨old, hunlocks⟩ := h.verified hv
    refine persist_agrees old hb.loaded (fun _ => ⟨rfl, rfl⟩) ?_ (Or.inr rfl)
    rw [hb.disk]
    exact hunlocks.of_same hpin hwallet

theorem changed_agrees {pin newPin : Bytes} {key : V.Key} (h : s.Agrees) (hv : Verified fault r s pin key)
    (hb : { s with loaded := some key }.Quiet base) (hf : AuthFault.harmless .changePin fault = true) :
    (persist fault draw (V.saveEncrypted newPin draw.walletSalt draw.walletIv key ++ V.savePin newPin draw.pinSalt) base
      fun s => (.changed, s)).2.Agrees := by
  have hcases : Passes 10 (AuthFault.script fault) ∨ ∃ position kind, AuthFault.script fault = some ⟨position, kind⟩ ∧
      position ≤ 6 ∧ (kind = .stop ∨ position ≠ 1 ∧ position ≠ 3) := by
    match fault, hf with
    | none, _ => exact Or.inl nofun
    | some (.read _), _ => exact Or.inl nofun
    | some (.write ⟨position, kind⟩), hf =>
      rcases AuthFault.harmless_changePin hf with hlate | ⟨hearly, hkind⟩
      · refine Or.inl ?_
        rintro f ⟨⟩
        exact Or.inl hlate
      · by_cases hone : position = 1 ∧ kind ≠ .stop
        · refine Or.inl ?_
          rintro f ⟨⟩
          exact Or.inr hone
        · refine Or.inr ⟨position, kind, rfl, hearly, ?_⟩
          rw [not_and, not_not] at hone
          exact or_iff_not_imp_left.mpr fun hs => ⟨fun h1 => hs (hone h1), hkind.resolve_left hs⟩
  rcases hcases with hpasses | ⟨position, kind, hscript, hearly, hkind⟩
  · exact persist_agrees newPin hb.loaded (fun _ => ⟨rfl, rfl⟩) (reseal_done (Or.inl rfl) hpasses) (Or.inr rfl)
  · obtain ⟨old, hunlocks⟩ := h.verified hv
    refine persist_agrees old hb.loaded (fun _ => ⟨rfl, rfl⟩) ?_ (Or.inr rfl)
    rw [hscript, hb.disk]
    exact hunlocks.of_same (reseal_early _ hearly hkind).1 (reseal_early _ hearly hkind).2

theorem recovered_agrees {newPin : Bytes} {key : V.Key} (h : s.Agrees) (hb : s.Quiet base)
    (hf : AuthFault.harmless .recover fault = true) : (replaceKey fault draw key newPin none base).2.Agrees := by
  have hcases : (∀ f ∈ AuthFault.script fault, 18 ≤ f.position ∨ (f.position = 1 ∨ f.position = 9) ∧ f.kind ≠ .stop) ∨
      ∃ position, AuthFault.script fault = some ⟨position, .stop⟩ ∧ position ≤ 6 := by
    match fault, hf with
    | none, _ => exact Or.inl nofun
    | some (.read _), _ => exact Or.inl nofun
    | some (.write ⟨position, kind⟩), hf =>
      rcases AuthFault.harmless_recover hf with hlate | ⟨hearly, rfl⟩
      · refine Or.inl ?_
        rintro f ⟨⟩
        exact hlate
      · exact Or.inr ⟨position, rfl, hearly⟩
  rw [replaceKey, openSession, List.append_assoc, List.append_assoc]
  rcases hcases with hpasses | ⟨position, hscript, hearly⟩
  · exact persist_agrees newPin rfl (fun _ => ⟨rfl, rfl⟩) (replaceKey_done (Or.inr ⟨_, rfl⟩) hpasses) (Or.inr rfl)
  · -- the process stops with the old files, and forgets the new key
    obtain ⟨old, oldKey, hunlocks, -⟩ := h
    obtain ⟨halt, temp, hrun, hstop⟩ := replaceWallet_early .plain (V.pem key) base.disk hearly (Or.inl rfl)
    have hend : ∀ ops, perform files (AuthFault.script fault) (V.save key ++ ops) base.disk =
        (some .stopped, { base.disk with temp := temp }) := by
      intro ops
      rw [hscript, VaultLib.save, Script.perform_append, hrun, hstop rfl]
    have hsame : ∀ ops,
        PinOpens V.toVaultLib (perform files (AuthFault.script fault) (V.save key ++ ops) base.disk).2 old oldKey := by
      intro ops
      rw [hend, hb.disk]
      exact hunlocks.of_same rfl rfl
    exact persist_agrees old rfl (fun _ => ⟨rfl, rfl⟩) (hsame _) (Or.inl (congrArg Prod.fst (hend _)))

theorem Agrees.step {event : AuthEvent V.toVaultLib} (h : s.Agrees)
    (hf : AuthFault.harmless event.request.endpoint event.fault = true) : (s.step event).Agrees := by
  have haccess := handle_access event.fault event.request event.draw s
  rw [AuthState.step]
  generalize s.handle event.fault event.request event.draw = result at haccess
  cases haccess with
  | quiet hq => exact h.of_same hq.disk hq.loaded
  | unset hunset =>
    obtain ⟨pin, key, hunlocks, -⟩ := h
    have hfits := hunlocks.fits
    rw [hunset] at hfits
    exact absurd hfits Bool.false_ne_true
  | loaded hv hq =>
    obtain ⟨pin, hunlocks⟩ := h.verified hv
    exact agrees_loaded (hq.disk ▸ hunlocks) hq.loaded
  | session hv hb hq =>
    obtain ⟨pin, hunlocks⟩ := h.verified hv
    refine Agrees.of_same ?_ hq.disk hq.loaded
    obtain ⟨hpin, hwallet⟩ := session_same (bytesToHex event.draw.token.1) s.disk (AuthFault.script event.fault)
    refine persist_agrees pin hb.loaded (fun _ => ⟨rfl, rfl⟩) ?_ (Or.inr rfl)
    rw [hb.disk]
    exact hunlocks.of_same hpin hwallet
  | encrypted he hv hb => exact encrypted_agrees h hv hb (he ▸ hf)
  | changed he hv hb => exact changed_agrees h hv hb (he ▸ hf)
  | recovered hr hb => exact recovered_agrees h hb (hr.endpoint ▸ hf)

theorem Agrees.run : ∀ (events : List (AuthEvent V.toVaultLib)) {s : AuthState V.toVaultLib}, s.Agrees →
    (∀ e ∈ events, AuthFault.harmless e.request.endpoint e.fault = true) → (s.run events).Agrees
  | [], _, h, _ => h
  | event :: rest, _, h, hf =>
    Agrees.run rest (h.step (hf event List.mem_cons_self)) fun e he => hf e (List.mem_cons_of_mem _ he)

/-- If some PIN fits both files and unlocks the loaded key, so it does after every run of requests with harmless faults. -/
theorem files_agree_after_harmless_faults (events : List (AuthEvent V.toVaultLib)) (s : AuthState V.toVaultLib)
    (h : s.Agrees) (hf : ∀ e ∈ events, AuthFault.harmless e.request.endpoint e.fault = true) : (s.run events).Agrees :=
  h.run events hf

abbrev toyVault : Vault where
  toVaultLib := toyVaultLib
  tag_length key _ _ := by simp [key.2]
  ciphertext_length _ _ _ := rfl
  decrypt_encrypt _ _ _ := if_pos rfl
  pem_length _ := by simp
  readPem_pem _ := by simp
  sealed_not_pem content pin plaintext h := by
    by_contra hpem
    have hdashes : content.take 60 = List.replicate 60 45 := by
      by_contra hne
      exact hpem (if_neg hne)
    have htag : (content.drop 28).take 16 = List.replicate 16 45 := by
      have hcut : (content.drop 28).take 16 = ((content.take 60).drop 28).take 16 := by
        rw [List.drop_take, List.take_take]
        rfl
      rw [hcut, hdashes]
      rfl
    simp only [VaultLib.decrypt, ite_error_ok, htag] at h
    obtain ⟨-, -, -, h⟩ := h
    have hother : List.replicate 16 45 ≠ (toyVaultLib.deriveKey pin (content.take 16)).1.take 16 := by
      simp only [VaultLib.deriveKey]
      split
      · decide
      · split
        · decide
        · decide
    rw [if_neg hother] at h
    exact fail_ne_ok h

def changeEvent (fault : Option AuthFault) : AuthEvent toyVaultLib :=
  ⟨toyRequest .changePin "\x7b\"old_pin\":\"1234\",\"new_pin\":\"5678\"\x7d", toyDraw 0, fault⟩

theorem toyOwner_agrees : Agrees (V := toyVault) toyOwner := by
  have hopens : toyVaultLib.unlockWithPin toyOwner.disk.wallet (ascii "1234") = .ok 7 := by decide +kernel
  refine ⟨ascii "1234", (7 : UInt8), ⟨by decide +kernel, hopens⟩, ?_⟩
  rintro k ⟨⟩
  rfl

theorem files_agree_toy : (toyOwner.handle (changeEvent (some (.write ⟨10, .fail 0⟩))).fault
      (changeEvent (some (.write ⟨10, .fail 0⟩))).request (toyDraw 0)).1 = .failed 400 "failed to restrict pin.hash permissions" ∧
    Agrees (V := toyVault) (toyOwner.run [changeEvent (some (.write ⟨10, .fail 0⟩))]) :=
  ⟨by decide +kernel, files_agree_after_harmless_faults (V := toyVault) [changeEvent (some (.write ⟨10, .fail 0⟩))] toyOwner
    toyOwner_agrees (by decide +kernel)⟩

def toyPins : List Bytes := [ascii "1234", ascii "5678", ascii "0000"]

theorem toyPins_cover (pin : Bytes) : ∃ like ∈ toyPins, (∀ salt, toyVaultLib.hashPin pin salt = toyVaultLib.hashPin like salt) ∧
    ∀ salt, toyVaultLib.deriveKey pin salt = toyVaultLib.deriveKey like salt := by
  by_cases h : pin = ascii "1234"
  · exact ⟨pin, h ▸ by decide, fun _ => rfl, fun _ => rfl⟩
  · by_cases h' : pin = ascii "5678"
    · exact ⟨pin, h' ▸ by decide, fun _ => rfl, fun _ => rfl⟩
    · refine ⟨ascii "0000", by decide, fun _ => ?_, fun _ => ?_⟩
      · simp only [VaultLib.hashPin, if_neg h, if_neg h']
        rfl
      · simp only [VaultLib.deriveKey, if_neg h, if_neg h']
        rfl

def agreesUnder (pin : Bytes) (s : AuthState toyVaultLib) : Bool :=
  toyVaultLib.verifyPin s.disk.pin pin &&
    match toyVaultLib.unlockWithPin s.disk.wallet pin with
    | .ok key => s.loaded.all (· = key)
    | .error _ => false

theorem not_agrees {s : AuthState toyVaultLib} (h : toyPins.all (fun pin => !agreesUnder pin s) = true) :
    ¬ Agrees (V := toyVault) s := by
  rintro ⟨pin, key, ⟨hfits, hopens⟩, hloaded⟩
  obtain ⟨like, hmem, hhash, hderive⟩ := toyPins_cover pin
  have hfits' : toyVaultLib.verifyPin s.disk.pin like = true := by
    unfold VaultLib.verifyPin at hfits ⊢
    simpa only [hhash] using hfits
  have hopens' : toyVaultLib.unlockWithPin s.disk.wallet like = .ok key := by
    unfold VaultLib.unlockWithPin VaultLib.decrypt at hopens ⊢
    simpa only [hderive] using hopens
  have hall : s.loaded.all (· = key) = true := (Option.all_eq_true _ _).mpr fun k hk => decide_eq_true (hloaded k hk)
  have hunder : agreesUnder like s = true := by
    rw [agreesUnder, hfits', hopens']
    exact hall
  have hnot := List.all_eq_true.mp h like hmem
  rw [hunder] at hnot
  cases hnot

/-- A change of the PIN: the copy is not written, the process stops after the rename, `pin.hash` cannot be opened, the process
stops before the hash is written. A recovery: the directory cannot be made, the process stops after the first rename,
`pin.hash` cannot be opened. No PIN fits both files and the loaded key afterwards. -/
theorem files_drift_apart : Agrees (V := toyVault) toyOwner ∧
    (∀ fault ∈ [⟨3, .fail 0⟩, ⟨7, .stop⟩, ⟨8, .fail 0⟩, ⟨9, .stop⟩],
      ¬ Agrees (V := toyVault) (toyOwner.run [changeEvent (some (.write fault))])) ∧
    ∀ fault ∈ [⟨0, .fail 0⟩, ⟨7, .stop⟩, ⟨16, .fail 0⟩],
      ¬ Agrees (V := toyVault) (toyOwner.run [{ recoverOther with fault := some (.write fault) }]) := by
  refine ⟨toyOwner_agrees, fun fault hf => not_agrees ?_, fun fault hf => not_agrees ?_⟩
  · revert fault
    decide +kernel
  · revert fault
    decide +kernel

end AuthState

end Caesar
