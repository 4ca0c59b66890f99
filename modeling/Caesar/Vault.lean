import Caesar.Lib.Script
import Caesar.Crypto

/-!
# The PIN file and the wallet file

`pin.hash` holds a salt and the hash of the PIN and is written in place.
`wallet.pem` holds the key, plain or encrypted under the PIN, and is replaced by
renaming a temporary file. `save`, `save_encrypted` and `save_pin` are scripts of
file operations here; what each operation leaves when it fails is part of the
model.
-/

namespace Caesar

open Codec

/-! ## The libraries -/

/-- PBKDF2, AES-GCM and the reading and writing of Ed25519 keys. -/
structure VaultLib where
  Key : Type
  pbkdf2 : Nat → Bytes → Bytes → Hash256
  /-- The tag and the ciphertext. -/
  gcmEncrypt : Hash256 → Bytes → Bytes → Bytes × Bytes
  gcmDecrypt : Hash256 → Bytes → Bytes → Bytes → Option Bytes
  pem : Key → Bytes
  readPem : Bytes → Option Key
  address : Key → Bytes
  entropyToMnemonic : Bytes → Bytes
  validateMnemonic : Bytes → Bool
  walletFromMnemonic : Bytes → Key

abbrev Salt := { bytes : Bytes // bytes.length = 16 }

abbrev Iv := { bytes : Bytes // bytes.length = 12 }

namespace VaultLib

variable (V : VaultLib)

def hashPin (pin salt : Bytes) : Bytes := bytesToHex (V.pbkdf2 100000 pin salt).1

/-- What `save_pin` writes. -/
def pinHash (pin : Bytes) (salt : Salt) : Bytes := salt.1 ++ V.hashPin pin salt.1

def verifyPin (file : Option Bytes) (pin : Bytes) : Bool :=
  match file with
  | none => false
  | some content => content.length = 80 && V.hashPin pin (content.take 16) = content.drop 16

def deriveKey (pin salt : Bytes) : Hash256 := V.pbkdf2 600000 pin salt

/-- What `SecureWalletStorage::encrypt` writes. -/
def encrypt (pin : Bytes) (salt : Salt) (iv : Iv) (plaintext : Bytes) : Bytes :=
  let sealed := V.gcmEncrypt (V.deriveKey pin salt.1) iv.1 plaintext
  salt.1 ++ (iv.1 ++ (sealed.1 ++ sealed.2))

def decrypt (file : Option Bytes) (pin : Bytes) : Result Bytes :=
  match file with
  | none => fail "cannot open wallet file"
  | some content =>
    let salt := content.take 16
    let iv := (content.drop 16).take 12
    let tag := (content.drop 28).take 16
    let ciphertext := content.drop 44
    if content.length < 44 then fail "invalid encrypted wallet header"
    else if ciphertext.isEmpty then fail "empty wallet file"
    else if ciphertext.length > 2147483647 then fail "encrypted wallet file is too large"
    else match V.gcmDecrypt (V.deriveKey pin salt) iv tag ciphertext with
      | none => fail "wrong PIN or tampered file"
      | some plaintext => pure plaintext

/-- `unlock_with_pin`, up to the key. -/
def unlockWithPin (file : Option Bytes) (pin : Bytes) : Result V.Key := do
  let plaintext ← V.decrypt file pin
  match V.readPem plaintext with
  | none => fail "unlock_with_pin: PEM parse"
  | some key => pure key

end VaultLib

/-- The libraries are correct: what was encrypted is decrypted, what was written as PEM is read, and no file is both. -/
structure Vault extends VaultLib where
  tag_length : ∀ key iv plaintext, (gcmEncrypt key iv plaintext).1.length = 16
  ciphertext_length : ∀ key iv plaintext, (gcmEncrypt key iv plaintext).2.length = plaintext.length
  decrypt_encrypt : ∀ key iv plaintext,
    gcmDecrypt key iv (gcmEncrypt key iv plaintext).1 (gcmEncrypt key iv plaintext).2 = some plaintext
  pem_length : ∀ key, 0 < (pem key).length ∧ (pem key).length ≤ 2147483647
  readPem_pem : ∀ key, readPem (pem key) = some key
  sealed_not_pem : ∀ content pin plaintext, toVaultLib.decrypt (some content) pin = .ok plaintext → readPem content = none

/-! ## File operations -/

/-- The files of the data directory. `temp` is `wallet.pem.tmp`. -/
structure Disk where
  wallet : Option Bytes
  temp : Option Bytes
  pin : Option Bytes
  session : Option Bytes
  deriving DecidableEq

/-- `save` writes the key as it is and looks at every result, `save_encrypted` writes it through a stream. -/
inductive WalletForm where
  | plain
  | sealed
  deriving DecidableEq

inductive FileOp where
  | createDirectories
  | removeTemp
  | openTemp (form : WalletForm)
  | writeTemp (form : WalletForm) (content : Bytes)
  | chmodTemp (form : WalletForm)
  | fsyncTemp
  | renameTemp (form : WalletForm)
  | fsyncParentDir
  | openPin
  | writePin (content : Bytes)
  | chmodPin
  | writeSession (token : Bytes)
  deriving DecidableEq

namespace FileOp

def act : FileOp → Disk → Option Disk
  | createDirectories, d => some d
  | removeTemp, d => some { d with temp := none }
  | openTemp _, d => some { d with temp := some [] }
  -- a stream that was not opened writes nothing
  | writeTemp _ content, d => some { d with temp := d.temp.map fun _ => content }
  | chmodTemp _, d => if d.temp.isSome then some d else none
  | fsyncTemp, d => if d.temp.isSome then some d else none
  | renameTemp _, d => if d.temp.isSome then some { d with wallet := d.temp, temp := none } else none
  | fsyncParentDir, d => some d
  | openPin, d => some { d with pin := some [] }
  | writePin content, d => some { d with pin := some content }
  | chmodPin, d => some d
  | writeSession token, d => some { d with session := some token }

/-- A failed write leaves a part of the content. The session file is opened by the same operation: it stays as it was, or
has a part of the token. -/
def spoil (done : Nat) : FileOp → Disk → Disk
  | writeTemp _ content, d => { d with temp := d.temp.map fun _ => content.take done }
  | writePin content, d => { d with pin := d.pin.map fun _ => content.take done }
  | writeSession token, d => { d with session := if done = 0 then d.session else some (token.take (done - 1)) }
  | _, d => d

def error : FileOp → Option String
  | createDirectories => some "cannot create wallet directory"
  | removeTemp => none
  | openTemp .plain => some "cannot open temporary wallet key for writing"
  | openTemp .sealed => none
  | writeTemp .plain _ => some "failed to write temporary PEM key"
  | writeTemp .sealed _ => none
  | chmodTemp .plain => some "failed to secure temporary wallet key"
  | chmodTemp .sealed => some "failed to secure encrypted wallet file"
  | fsyncTemp => some "fsync failed"
  | renameTemp .plain => some "failed to atomically replace wallet key"
  | renameTemp .sealed => some "failed to atomically replace encrypted wallet"
  | fsyncParentDir => some "fsync dir failed"
  | openPin => some "cannot open pin.hash for writing"
  | writePin _ => none
  | chmodPin => some "failed to restrict pin.hash permissions"
  | writeSession _ => none

/-- Once the temporary file is open, a failure removes it. -/
def cleanup : FileOp → Disk → Disk
  | writeTemp _ _, d | chmodTemp _, d | fsyncTemp, d | renameTemp _, d | fsyncParentDir, d => { d with temp := none }
  | _, d => d

end FileOp

def files : Script.Machine Disk FileOp := ⟨FileOp.act, FileOp.spoil, FileOp.error, FileOp.cleanup⟩

/-- The operations of `save` and `save_encrypted`. -/
def replaceWallet (form : WalletForm) (content : Bytes) : List FileOp :=
  [.createDirectories, .removeTemp, .openTemp form, .writeTemp form content, .chmodTemp form, .fsyncTemp, .renameTemp form,
    .fsyncParentDir]

namespace VaultLib

variable (V : VaultLib)

def save (key : V.Key) : List FileOp := replaceWallet .plain (V.pem key)

def saveEncrypted (pin : Bytes) (salt : Salt) (iv : Iv) (key : V.Key) : List FileOp :=
  replaceWallet .sealed (V.encrypt pin salt iv (V.pem key))

def savePin (pin : Bytes) (salt : Salt) : List FileOp := [.openPin, .writePin (V.pinHash pin salt), .chmodPin]

def isFileEncrypted (file : Option Bytes) : Bool :=
  match file with
  | none => false
  | some content => 45 ≤ content.length && content.head? ≠ some 45

/-- `load_or_defer`: without a file a new key is saved, a plain key is loaded, and everything else waits for the PIN. -/
def loadOrDefer (fresh : V.Key) (d : Disk) : Option V.Key × Disk :=
  match d.wallet with
  | none => (some fresh, { d with wallet := some (V.pem fresh), temp := none })
  | some content => (V.readPem content, d)

end VaultLib

end Caesar
