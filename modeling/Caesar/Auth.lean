import Caesar.Otp
import Caesar.Vault

/-!
# The authentication endpoints

Nine endpoints share the PIN file, the wallet, the unlocked flag, the session
token and the counter of failures. A request is one step. It draws what is
random, and one of its file operations may fail or the process may stop before
it; a process that stopped starts again from its files.
-/

namespace Caesar

open Codec Text

/-! ## Requests and replies -/

inductive Endpoint where
  | autoUnlock
  | status
  | setup
  | unlock
  | requestOtp
  | verifyOtp
  | recover
  | encryptWallet
  | changePin
  deriving DecidableEq

structure AuthRequest where
  endpoint : Endpoint
  remoteAddr : Bytes
  origin : Bytes := []
  cookie : Bytes := []
  host : Bytes := []
  forwardedFor : Bytes := []
  owner : Bytes := []
  body : Bytes := []
  deriving DecidableEq

/-- What a request draws, and the clocks: `now` is the steady one, in nanoseconds. -/
structure Draw (V : VaultLib) where
  now : Nat
  unix : UnixTime
  token : Hash256
  entropy : Bytes
  pinSalt : Salt
  walletSalt : Salt
  walletIv : Iv
  otpWord : Option UInt32
  freshKey : V.Key

inductive AuthReply where
  | failed (status : Nat) (error : String)
  | autoUnlocked
  | status (hasPin unlocked : Bool)
  | session (token : Bytes) (mnemonic address : Option Bytes)
  | sent
  | verified
  | alreadyEncrypted
  | encrypted
  | changed
  | lost
  deriving DecidableEq

inductive ReadOp where
  | existsPin
  | verifyPin
  | isEncrypted
  | decryptWallet
  deriving DecidableEq

/-- A file cannot be read, or a fault in the script that writes the files. -/
inductive AuthFault where
  | read (op : ReadOp)
  | write (fault : Script.Fault)
  deriving DecidableEq

def AuthFault.script : Option AuthFault → Option Script.Fault
  | some (.write fault) => some fault
  | _ => none

/-- `find` of the key, `find` of a quote so many bytes further, and the text up to the next quote. When there is no quote the
position wraps around, and the text is the one before the first quote of the body. -/
def bodyField (key : String) (skip : Nat) (body : Bytes) : Option Bytes :=
  (suffixFrom (quoted key) body).map fun found =>
    match cut 34 (found.drop skip) with
    | some (_, rest) => rest.takeWhile (· != 34)
    | none => body.takeWhile (· != 34)

def isCsrfSafe (origin : Bytes) : Bool :=
  origin.isEmpty || (ascii "http://127.0.0.1:").isPrefixOf origin || (ascii "http://localhost:").isPrefixOf origin ||
    origin = ascii "https://tailscale-termux.tail57075d.ts.net"

def AuthRequest.clientIp (r : AuthRequest) : Bytes := if r.remoteAddr.isEmpty then ascii "local" else r.remoteAddr

def AuthRequest.isLocal (r : AuthRequest) : Bool :=
  r.remoteAddr = ascii "127.0.0.1" || r.remoteAddr = ascii "::1" || r.remoteAddr = ascii "localhost" || r.remoteAddr.isEmpty

/-! ## The state -/

inductive Note where
  | guess (limited correct : Bool)
  | cleared
  deriving DecidableEq

/-- An evaluation of `verify_pin`, or a call of `clear_auth_failures`. -/
structure TraceEntry where
  ip : Bytes
  time : Nat
  note : Note
  deriving DecidableEq

/-- The fields of the server that the endpoints use. `trace` and `issued` record what happened: the PINs tried with the
counters cleared, and the session tokens sent. -/
structure AuthState (V : VaultLib) where
  disk : Disk
  loaded : Option V.Key
  walletPreexisting : Bool
  unlocked : Bool
  sessionToken : Bytes
  failures : OrdMap Bytes (Nat × Nat)
  otp : OtpStore
  pendingEmail : Bytes
  devNoAuth : Bool
  trace : List TraceEntry
  issued : List Bytes

namespace AuthState

variable {V : VaultLib}

def restart (freshKey : V.Key) (s : AuthState V) : AuthState V :=
  let (loaded, disk) := V.loadOrDefer freshKey s.disk
  { s with
    disk := disk
    loaded := loaded
    walletPreexisting := s.disk.wallet.any (!·.isEmpty)
    unlocked := false
    sessionToken := (s.disk.session.getD []).takeWhile (· != newline)
    failures := .empty
    otp := .load s.otp.file
    pendingEmail := [] }

/-- `is_authenticated`. Only the first place is looked at where the cookie has the token. -/
def isAuthenticated (cookie : Bytes) (s : AuthState V) : Bool :=
  if s.devNoAuth then true
  else if !s.unlocked || s.sessionToken.isEmpty || cookie.isEmpty then false
  else
    let needle := ascii "caesar_session=" ++ s.sessionToken
    match suffixFrom needle cookie with
    | none => false
    | some found => match found.drop needle.length with
      | [] => true
      | c :: _ => c = 59 || c = 32

/-! ## The counter of failures -/

def checkRateLimit (ip : Bytes) (now : Nat) (s : AuthState V) : Bool × AuthState V :=
  match s.failures.find? ip with
  | none => (true, s)
  | some (count, last) =>
    if count ≥ 5 then
      if (now - last) / 1000000000 < 300 then (false, s) else (true, { s with failures := s.failures.erase ip })
    else (true, s)

def recordAuthFailure (ip : Bytes) (now : Nat) (s : AuthState V) : AuthState V :=
  { s with failures := s.failures.insert ip (((s.failures.find? ip).getD (0, 0)).1 + 1, now) }

def noted (r : AuthRequest) (now : Nat) (note : Note) (s : AuthState V) : AuthState V :=
  { s with trace := ⟨r.clientIp, now, note⟩ :: s.trace }

def clearAuthFailures (r : AuthRequest) (now : Nat) (s : AuthState V) : AuthState V :=
  { s with failures := s.failures.erase r.clientIp }.noted r now .cleared

/-! ## Parts of the handlers -/

section
variable (fault : Option AuthFault) (r : AuthRequest) (draw : Draw V)

def guarded (s : AuthState V) (rest : AuthState V → AuthReply × AuthState V) : AuthReply × AuthState V :=
  if !isCsrfSafe r.origin then (.failed 403 "csrf", s) else rest s

def limited (busy : String) (s : AuthState V) (rest : AuthState V → AuthReply × AuthState V) : AuthReply × AuthState V :=
  guarded r s fun s =>
    match s.checkRateLimit r.clientIp draw.now with
    | (false, s) => (.failed 429 busy, s)
    | (true, s) => rest s

def pinExists (s : AuthState V) : Result Bool :=
  if fault = some (.read .existsPin) then fail "filesystem error" else pure s.disk.pin.isSome

/-- `verify_pin`; a file that cannot be read fits no PIN. -/
def verifyPin (limited : Bool) (pin : Bytes) (s : AuthState V) : Bool × AuthState V :=
  let correct := fault ≠ some (.read .verifyPin) && V.verifyPin s.disk.pin pin
  (correct, s.noted r draw.now (.guess limited correct))

/-- The key, unlocked with the PIN when it is not loaded. -/
def ensureLoaded (pin : Bytes) (s : AuthState V) : Result V.Key :=
  match s.loaded with
  | some key => pure key
  | none => if fault = some (.read .decryptWallet) then fail "cannot open wallet file" else V.unlockWithPin s.disk.wallet pin

/-- The script is run. An exception is answered; a process that stopped starts again. -/
def persist (ops : List FileOp) (s : AuthState V) (rest : AuthState V → AuthReply × AuthState V) :
    AuthReply × AuthState V :=
  match Script.perform files (AuthFault.script fault) ops s.disk with
  | (none, disk) => rest { s with disk := disk }
  | (some (.threw what), disk) => (.failed 400 what, { s with disk := disk })
  | (some .stopped, disk) => (.lost, { s with disk := disk }.restart draw.freshKey)

/-- The script is run with the session file last, and the client gets a new token. -/
def openSession (ops : List FileOp) (mnemonic address : Option Bytes) (s : AuthState V) : AuthReply × AuthState V :=
  let token := bytesToHex draw.token.1
  persist fault draw (ops ++ [.writeSession token]) s fun s =>
    (.session token mnemonic address, { s with unlocked := true, sessionToken := token, issued := token :: s.issued })

/-- Wallet and PIN file for a new key. The key is in memory before the first operation. -/
def replaceKey (key : V.Key) (pin : Bytes) (mnemonic : Option Bytes) (s : AuthState V) : AuthReply × AuthState V :=
  openSession fault draw
    (V.save key ++ V.saveEncrypted pin draw.walletSalt draw.walletIv key ++ V.savePin pin draw.pinSalt)
    mnemonic (some (V.address key)) { s with loaded := some key }

/-! ## The handlers -/

def autoUnlock (s : AuthState V) : AuthReply × AuthState V :=
  if r.isLocal then (.autoUnlocked, { s with unlocked := true }) else (.failed 403 "local only", s)

def status (s : AuthState V) : AuthReply × AuthState V :=
  let contains (text : Bytes) := (suffixFrom text r.host).isSome
  let shown := r.owner = ascii "1" || (r.forwardedFor.isEmpty && (contains (ascii "127.0.0.1") || contains (ascii "localhost")))
  (.status (shown && s.disk.pin.isSome) (s.isAuthenticated r.cookie), s)

def setup (s : AuthState V) : AuthReply × AuthState V :=
  guarded r s fun s =>
    match pinExists fault s with
    | .error e => (.failed 400 e.what, s)
    | .ok true => (.failed 400 "PIN already set. Use /api/auth/unlock", s)
    | .ok false =>
      match bodyField "pin" 5 r.body with
      | none => (.failed 400 "missing pin", s)
      | some pin =>
        if pin.length < 4 then (.failed 400 "PIN must be 4+ digits", s)
        else
          let mnemonic := V.entropyToMnemonic draw.entropy
          match s.loaded, s.walletPreexisting with
          | none, true => (.failed 400 "existing wallet is unavailable; refusing replacement", s)
          | none, false => replaceKey fault draw (V.walletFromMnemonic mnemonic) pin none s
          | some _, false => replaceKey fault draw (V.walletFromMnemonic mnemonic) pin (some mnemonic) s
          | some key, true =>
            openSession fault draw (V.saveEncrypted pin draw.walletSalt draw.walletIv key ++ V.savePin pin draw.pinSalt) none
              (some (V.address key)) s

def unlock (s : AuthState V) : AuthReply × AuthState V :=
  limited r draw "too many attempts, wait 5 minutes" s fun s =>
    match bodyField "pin" 5 r.body with
    | none => (.failed 400 "missing pin", s)
    | some pin =>
      match pinExists fault s with
      | .error e => (.failed 400 e.what, s)
      | .ok false => (.failed 400 "no PIN set", s)
      | .ok true =>
        match verifyPin fault r draw true pin s with
        | (false, s) => (.failed 401 "invalid PIN", s.recordAuthFailure r.clientIp draw.now)
        | (true, s) =>
          match ensureLoaded fault pin s with
          | .error e => (.failed 400 e.what, s)
          | .ok key =>
            let s := { s with loaded := some key }
            if (V.address key).isEmpty then (.failed 400 "wallet unlock produced no address", s)
            else
              match openSession fault draw [] none none s with
              | (.session token mnemonic address, s) => (.session token mnemonic address, s.clearAuthFailures r draw.now)
              | ended => ended

def requestOtp (s : AuthState V) : AuthReply × AuthState V :=
  limited r draw "too many attempts" s fun s =>
    match bodyField "email" 8 r.body with
    | none => (.failed 400 "missing email", s.recordAuthFailure r.clientIp draw.now)
    | some email =>
      match draw.otpWord with
      | none => (.failed 400 "RAND_bytes failed", s.recordAuthFailure r.clientIp draw.now)
      | some word =>
        (.sent, { s with otp := s.otp.create email (some word) draw.unix }.clearAuthFailures r draw.now)

def verifyOtp (s : AuthState V) : AuthReply × AuthState V :=
  limited r draw "too many attempts" s fun s =>
    match bodyField "email" 8 r.body with
    | none => (.failed 400 "missing email", s)
    | some email =>
      match bodyField "code" 7 r.body with
      | none => (.failed 400 "missing code", s)
      | some code =>
        let (verdict, otp) := s.otp.verify email code draw.unix
        let s := { s with otp := otp }
        if !verdict.accepted then (.failed 401 "invalid or expired code", s.recordAuthFailure r.clientIp draw.now)
        else (.verified, { s with pendingEmail := email }.clearAuthFailures r draw.now)

def recover (s : AuthState V) : AuthReply × AuthState V :=
  limited r draw "too many attempts, wait 5 minutes" s fun s =>
    match bodyField "mnemonic" 10 r.body with
    | none => (.failed 400 "missing mnemonic", s)
    | some mnemonic =>
      match bodyField "new_pin" 9 r.body with
      | none => (.failed 400 "missing new_pin", s)
      | some newPin =>
        if newPin.length < 4 then (.failed 400 "PIN must be 4+ digits", s)
        else if !V.validateMnemonic mnemonic then (.failed 400 "invalid mnemonic", s)
        else replaceKey fault draw (V.walletFromMnemonic mnemonic) newPin none s

def encryptWallet (s : AuthState V) : AuthReply × AuthState V :=
  guarded r s fun s =>
    match bodyField "pin" 5 r.body with
    | none => (.failed 400 "missing pin", s)
    | some pin =>
      if pin.length < 4 then (.failed 400 "PIN must be 4+ digits", s)
      else match pinExists fault s with
        | .error e => (.failed 400 e.what, s)
        | .ok false => (.failed 400 "no PIN set; run /api/auth/setup first", s)
        | .ok true =>
          match verifyPin fault r draw false pin s with
          | (false, s) => (.failed 401 "invalid PIN", s)
          | (true, s) =>
            if fault ≠ some (.read .isEncrypted) ∧ VaultLib.isFileEncrypted s.disk.wallet then (.alreadyEncrypted, s)
            else match ensureLoaded fault pin s with
              | .error e => (.failed 400 e.what, s)
              | .ok key =>
                persist fault draw (V.saveEncrypted pin draw.walletSalt draw.walletIv key) { s with loaded := some key }
                  fun s => (.encrypted, s)

def changePin (s : AuthState V) : AuthReply × AuthState V :=
  guarded r s fun s =>
    match bodyField "old_pin" 10 r.body with
    | none => (.failed 400 "missing old_pin", s)
    | some oldPin =>
      match bodyField "new_pin" 10 r.body with
      | none => (.failed 400 "missing new_pin", s)
      | some newPin =>
        if oldPin.length < 4 then (.failed 400 "old PIN too short", s)
        else if newPin.length < 4 then (.failed 400 "new PIN must be 4+ digits", s)
        else match verifyPin fault r draw false oldPin s with
          | (false, s) => (.failed 401 "invalid old PIN", s)
          | (true, s) =>
            match ensureLoaded fault oldPin s with
            | .error e => (.failed 400 e.what, s)
            | .ok key =>
              persist fault draw (V.saveEncrypted newPin draw.walletSalt draw.walletIv key ++ V.savePin newPin draw.pinSalt)
                { s with loaded := some key } fun s => (.changed, s)

def handle (s : AuthState V) : AuthReply × AuthState V :=
  match r.endpoint with
  | .autoUnlock => autoUnlock r s
  | .status => status r s
  | .setup => setup fault r draw s
  | .unlock => unlock fault r draw s
  | .requestOtp => requestOtp r draw s
  | .verifyOtp => verifyOtp r draw s
  | .recover => recover fault r draw s
  | .encryptWallet => encryptWallet fault r draw s
  | .changePin => changePin fault r draw s

end

end AuthState

/-! ## Runs -/

structure AuthEvent (V : VaultLib) where
  request : AuthRequest
  draw : Draw V
  fault : Option AuthFault := none

namespace AuthState

variable {V : VaultLib}

def step (s : AuthState V) (event : AuthEvent V) : AuthState V := (s.handle event.fault event.request event.draw).2

def run (events : List (AuthEvent V)) (s : AuthState V) : AuthState V := events.foldl step s

end AuthState

end Caesar
