import Caesar.MnemonicSound

/-!
# Which wallet a recovery phrase gives

A phrase is checked by its words and derived from its text. Without a collision
among the calls made, two texts give one key only if they are equal
(`walletFromMnemonic_inj`), so the spacing is part of the secret.
-/

namespace Caesar

open Codec (Bytes)
open Slip10

/-! ## The calls of a derivation -/

section
variable (H : HdCrypto)

def childCalls (ek : ExtendedKey) : List UInt32 → List (Bytes × Bytes)
  | [] => []
  | idx :: rest => (ek.chainCode.1, childData ek idx) ::
    match H.hmacSha512 ek.chainCode.1 (childData ek idx) with
    | none => []
    | some I => childCalls (splitHmac I) rest

def defaultIndices : List UInt32 := [0x8000002C, 0x80001F3F, 0x80000000, 0x80000000, 0x80000000]

def seedCalls (seed : Octets 64) : List (Bytes × Bytes) :=
  (Text.ascii "ed25519 seed", seed.1) ::
    match H.hmacSha512 (Text.ascii "ed25519 seed") seed.1 with
    | none => []
    | some I => childCalls H (splitHmac I) defaultIndices

def walletCalls (mnemonic passphrase : Bytes) : List (Bytes × Bytes) :=
  match Bip39.mnemonicToSeed H mnemonic passphrase with
  | .error _ => []
  | .ok seed => seedCalls H seed

def leftHalf (call : Bytes × Bytes) : Option Bytes := (H.hmacSha512 call.1 call.2).map fun I => I.1.take 32

/-- PBKDF2 does not collide on the two texts, nor HMAC, in its left half, on the calls
made for them. -/
structure CollisionFreeCalls (m₁ m₂ passphrase : Bytes) : Prop where
  pbkdf2 : Bip39.mnemonicToSeed H m₁ passphrase = Bip39.mnemonicToSeed H m₂ passphrase → m₁ = m₂
  hmac : ∀ a ∈ walletCalls H m₁ passphrase, ∀ b ∈ walletCalls H m₂ passphrase, leftHalf H a = leftHalf H b → a = b

end

theorem parsePath_default : parsePath defaultPath = .ok defaultIndices := by decide +kernel

/-! ## The key determines the calls -/

section
variable {H : HdCrypto}

theorem childData_key {a b : ExtendedKey} {i j : UInt32} (h : childData a i = childData b j) : a.key = b.key := by
  have hdata := (List.cons.inj h).2
  apply Subtype.ext
  exact (List.append_inj hdata (by rw [a.key.2, b.key.2])).1

theorem deriveHardenedChild_ok {parent child : ExtendedKey} {idx : UInt32}
    (h : deriveHardenedChild H parent idx = .ok child) :
    ∃ I : Octets 64, H.hmacSha512 parent.chainCode.1 (childData parent idx) = some I ∧ child = splitHmac I := by
  rw [deriveHardenedChild, ite_error_ok] at h
  cases hI : H.hmacSha512 parent.chainCode.1 (childData parent idx) with
  | none => simp [hI, fail] at h
  | some I =>
    rw [hI] at h
    exact ⟨I, rfl, (Except.ok.inj h.2).symm⟩

theorem leftHalf_eq {key data : Bytes} {I : Octets 64} (h : H.hmacSha512 key data = some I) :
    leftHalf H (key, data) = some (splitHmac I).key.1 := by
  rw [leftHalf, h]
  rfl

theorem deriveIndices_key {indices : List UInt32} {a b r s : ExtendedKey}
    (hcf : ∀ c ∈ childCalls H a indices, ∀ d ∈ childCalls H b indices, leftHalf H c = leftHalf H d → c = d)
    (ha : deriveIndices H a indices = .ok r) (hb : deriveIndices H b indices = .ok s) (hkey : r.key = s.key) :
    a.key = b.key := by
  induction indices generalizing a b with
  | nil =>
    obtain rfl := Except.ok.inj ha
    obtain rfl := Except.ok.inj hb
    exact hkey
  | cons idx rest ih =>
    rw [deriveIndices, ite_error_ok, bind_ok] at ha hb
    obtain ⟨-, childA, hchildA, hrestA⟩ := ha
    obtain ⟨-, childB, hchildB, hrestB⟩ := hb
    obtain ⟨I, hI, rfl⟩ := deriveHardenedChild_ok hchildA
    obtain ⟨J, hJ, rfl⟩ := deriveHardenedChild_ok hchildB
    simp only [childCalls, hI, hJ] at hcf
    have hchild := ih (fun c hc d hd => hcf c (List.mem_cons_of_mem _ hc) d (List.mem_cons_of_mem _ hd)) hrestA hrestB
    have hcall := hcf _ List.mem_cons_self _ List.mem_cons_self (by
      rw [leftHalf_eq hI, leftHalf_eq hJ, hchild])
    exact childData_key (Prod.mk.inj hcall).2

theorem masterKeyFromSeed_ok {seed : Octets 64} {ek : ExtendedKey} (h : masterKeyFromSeed H seed.1 = .ok ek) :
    ∃ I : Octets 64, H.hmacSha512 (Text.ascii "ed25519 seed") seed.1 = some I ∧ ek = splitHmac I := by
  unfold masterKeyFromSeed at h
  cases hI : H.hmacSha512 (Text.ascii "ed25519 seed") seed.1 with
  | none => simp [hI, fail] at h
  | some I =>
    rw [hI] at h
    exact ⟨I, rfl, (Except.ok.inj h).symm⟩

theorem derivePath_key {x y : Octets 64} {r s : ExtendedKey}
    (hcf : ∀ c ∈ seedCalls H x, ∀ d ∈ seedCalls H y, leftHalf H c = leftHalf H d → c = d)
    (hx : derivePath H x.1 defaultPath = .ok r) (hy : derivePath H y.1 defaultPath = .ok s) (hkey : r.key = s.key) :
    x = y := by
  rw [derivePath, bind_ok] at hx hy
  obtain ⟨a, ha, hx⟩ := hx
  obtain ⟨b, hb, hy⟩ := hy
  rw [parsePath_default] at hx hy
  obtain ⟨I, hI, rfl⟩ := masterKeyFromSeed_ok ha
  obtain ⟨J, hJ, rfl⟩ := masterKeyFromSeed_ok hb
  simp only [seedCalls, hI, hJ] at hcf
  have hmaster := deriveIndices_key
    (fun c hc d hd => hcf c (List.mem_cons_of_mem _ hc) d (List.mem_cons_of_mem _ hd)) hx hy hkey
  have hcall := hcf _ List.mem_cons_self _ List.mem_cons_self (by rw [leftHalf_eq hI, leftHalf_eq hJ, hmaster])
  exact Subtype.ext (Prod.mk.inj hcall).2

end

section
variable {K : Crypto} {W : Bip39.WordList} {H : HdCrypto}

theorem walletFromMnemonic_ok {mnemonic passphrase : Bytes} {wallet : KeyPair}
    (h : walletFromMnemonic K W H mnemonic passphrase = .ok wallet) :
    ∃ (seed : Octets 64) (ext : ExtendedKey), Bip39.mnemonicToSeed H mnemonic passphrase = .ok seed ∧
      derivePath H seed.1 defaultPath = .ok ext ∧ wallet = ⟨ext.key⟩ := by
  rw [walletFromMnemonic, ite_error_ok, bind_ok] at h
  obtain ⟨-, seed, hseed, h⟩ := h
  obtain ⟨ext, hext, h⟩ := bind_ok.mp h
  unfold keypairFromEd25519Seed32 at h
  split at h
  · exact ⟨seed, ext, hseed, hext, (Except.ok.inj h).symm⟩
  · cases h

theorem walletFromMnemonic_inj {m₁ m₂ passphrase : Bytes} {wallet : KeyPair}
    (hcf : CollisionFreeCalls H m₁ m₂ passphrase) (h₁ : walletFromMnemonic K W H m₁ passphrase = .ok wallet)
    (h₂ : walletFromMnemonic K W H m₂ passphrase = .ok wallet) : m₁ = m₂ := by
  obtain ⟨x, r, hx, hr, hwr⟩ := walletFromMnemonic_ok h₁
  obtain ⟨y, s, hy, hs, hws⟩ := walletFromMnemonic_ok h₂
  have hcalls := hcf.hmac
  simp only [walletCalls, hx, hy] at hcalls
  have hkey : r.key = s.key := KeyPair.mk.inj (hwr.symm.trans hws)
  apply hcf.pbkdf2
  rw [hx, hy, derivePath_key hcalls hr hs hkey]

end

/-! ## Spacing -/

/-- The words separated by single blanks, as `entropy_to_mnemonic` writes them. -/
def canonicalText (text : Bytes) : Bytes := List.intercalate [32] (Bip39.splitWords text)

/-- Two valid texts of the same words give the same wallet. -/
def PhraseDeterminesWallet (K : Crypto) (W : Bip39.WordList) (H : HdCrypto) (m₁ m₂ passphrase : Bytes) : Prop :=
  Bip39.validateMnemonic K W m₁ = true → Bip39.validateMnemonic K W m₂ = true →
    Bip39.splitWords m₁ = Bip39.splitWords m₂ →
    walletFromMnemonic K W H m₁ passphrase = walletFromMnemonic K W H m₂ passphrase

/-- The wallet is the same if and only if the texts are, and texts in the canonical form are the same if the words are. -/
theorem phrase_determines_wallet (K : Crypto) (W : Bip39.WordList) (H : HdCrypto) :
    (∀ m₁ m₂ passphrase : Bytes, m₁ = canonicalText m₁ → m₂ = canonicalText m₂ →
      (Bip39.splitWords m₁ = Bip39.splitWords m₂ → m₁ = m₂) ∧ PhraseDeterminesWallet K W H m₁ m₂ passphrase) ∧
    ∀ (m₁ m₂ passphrase : Bytes) (wallet : KeyPair), walletFromMnemonic K W H m₁ passphrase = .ok wallet →
      Bip39.validateMnemonic K W m₂ = true → Bip39.splitWords m₁ = Bip39.splitWords m₂ →
      CollisionFreeCalls H m₁ m₂ passphrase → (PhraseDeterminesWallet K W H m₁ m₂ passphrase ↔ m₁ = m₂) := by
  constructor
  · intro m₁ m₂ passphrase hc₁ hc₂
    have hsame : Bip39.splitWords m₁ = Bip39.splitWords m₂ → m₁ = m₂ := by
      intro hwords
      calc m₁ = canonicalText m₁ := hc₁
        _ = canonicalText m₂ := by rw [canonicalText, canonicalText, hwords]
        _ = m₂ := hc₂.symm
    refine ⟨hsame, fun _ _ hwords => ?_⟩
    rw [hsame hwords]
  · intro m₁ m₂ passphrase wallet hwallet hvalid₂ hwords hcf
    constructor
    · intro hsame
      have hvalid₁ : Bip39.validateMnemonic K W m₁ = true := by
        rw [walletFromMnemonic, ite_error_ok] at hwallet
        simpa using hwallet.1
      have heq := hsame hvalid₁ hvalid₂ hwords
      exact walletFromMnemonic_inj hcf hwallet (heq.symm.trans hwallet)
    · intro heq _ _ _
      rw [heq]

/-! ## A phrase pasted with its newline -/

def toyHd : HdCrypto where
  pbkdf2HmacSha512 password _ _ := some ⟨Codec.leBytes 64 password.length, by simp⟩
  hmacSha512 _ data := some ⟨Codec.leBytes 64 (Codec.leNat data), by simp⟩
  newRawPrivateKey _ := true

def toyPhrase : Bytes := List.intercalate [32] (List.replicate 12 (Bip39.toyWord 0))

def pastedPhrase : Bytes := toyPhrase ++ [10]

theorem toyPhrase_collisionFree : CollisionFreeCalls toyHd toyPhrase pastedPhrase [] where
  pbkdf2 := by decide +kernel
  hmac := by decide +kernel

theorem phrase_determines_wallet_toy :
    PhraseDeterminesWallet toyCrypto Bip39.toyWordList toyHd toyPhrase toyPhrase [] ∧
      (PhraseDeterminesWallet toyCrypto Bip39.toyWordList toyHd toyPhrase pastedPhrase [] ↔ toyPhrase = pastedPhrase) := by
  have hcanonical : toyPhrase = canonicalText toyPhrase := by decide +kernel
  have hok : ∃ wallet : KeyPair, walletFromMnemonic toyCrypto Bip39.toyWordList toyHd toyPhrase [] = .ok wallet :=
    ⟨⟨⟨List.replicate 5 0 ++ 35 :: List.replicate 26 0, rfl⟩⟩, by decide +kernel⟩
  obtain ⟨wallet, hwallet⟩ := hok
  have hbound := phrase_determines_wallet toyCrypto Bip39.toyWordList toyHd
  exact ⟨(hbound.1 _ _ _ hcanonical hcanonical).2,
    hbound.2 _ _ _ wallet hwallet (by decide +kernel) (by decide +kernel) toyPhrase_collisionFree⟩

-- both texts pass the check, and the second opens another wallet without an error
theorem pasted_phrase_gives_another_wallet :
    Bip39.validateMnemonic toyCrypto Bip39.toyWordList toyPhrase = true ∧
    Bip39.validateMnemonic toyCrypto Bip39.toyWordList pastedPhrase = true ∧
    Bip39.splitWords toyPhrase = Bip39.splitWords pastedPhrase ∧
    ¬ PhraseDeterminesWallet toyCrypto Bip39.toyWordList toyHd toyPhrase pastedPhrase [] ∧
    replaceWithMnemonic toyCrypto Bip39.toyWordList toyHd toyPhrase =
      .ok ⟨⟨List.replicate 5 0 ++ 35 :: List.replicate 26 0, rfl⟩⟩ ∧
    replaceWithMnemonic toyCrypto Bip39.toyWordList toyHd pastedPhrase =
      .ok ⟨⟨List.replicate 5 0 ++ 36 :: List.replicate 26 0, rfl⟩⟩ := by
  have hvalid : Bip39.validateMnemonic toyCrypto Bip39.toyWordList toyPhrase = true := by decide +kernel
  have hpasted : Bip39.validateMnemonic toyCrypto Bip39.toyWordList pastedPhrase = true := by decide +kernel
  have hwords : Bip39.splitWords toyPhrase = Bip39.splitWords pastedPhrase := by decide +kernel
  refine ⟨hvalid, hpasted, hwords, ?_, by decide +kernel, by decide +kernel⟩
  intro hsame
  have hwallets := hsame hvalid hpasted hwords
  revert hwallets
  decide +kernel

end Caesar
