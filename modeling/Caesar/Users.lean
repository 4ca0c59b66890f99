import Caesar.Pool

/-!
# Registration of users

`/api/user/register` has two forms. With an address it registers that address.
With a user name and a PIN it makes a wallet, and registers the address of the
wallet. Both run under `g_pool_mutex`, which a thread can take only once.
-/

namespace Caesar

open Codec Text

/-! ## The mutex -/

/-- Who holds a mutex, as a thread sees it. -/
inductive Owner where
  | nobody
  | self
  | other
  deriving DecidableEq

/-- How a handler ends: it answers, or it waits for a mutex that it holds itself, or for one that is never given back. -/
inductive Ending (S A : Type) where
  | done (a : A) (s : S)
  | selfLock (s : S)
  | blocked (s : S)

/-- A part of a handler over the state behind the mutex. -/
def Guarded (S A : Type) : Type := Owner → S → Ending S A

/-- `std::lock_guard` around the rest of a block. -/
def lockGuard {S A : Type} (body : Guarded S A) : Guarded S A := fun owner s =>
  match owner with
  | .nobody => body .self s
  | .self => .selfLock s
  | .other => .blocked s

/-! ## The handler -/

structure NewWallet where
  mnemonic : Bytes
  address : Bytes
  publicKey : Bytes
  deriving DecidableEq

/-- A request with what the handler finds: the time, the wallet that the library makes, and whether the file with the
mnemonic can be written. -/
structure UserRequest where
  body : Bytes
  now : UInt64
  generated : Result NewWallet
  encrypted : Result Unit

inductive UserReply where
  | registered (already : Bool) (userNumber : UInt32) (isFounder : Bool) (total : UInt64)
  | created (wallet : NewWallet) (username : Bytes) (userNumber : UInt32) (isFounder : Bool) (total : UInt64)
  | failed (status : Nat) (error : String)
  deriving DecidableEq

def isAlnum (b : UInt8) : Bool := isDigit b || (65 ≤ b && b ≤ 90) || (97 ≤ b && b ≤ 122)

def usernameByte (b : UInt8) : Bool := isAlnum b || b = 95 || b = 45

namespace UserRequest

def username (r : UserRequest) : Bytes := stringField "username" r.body

def pin (r : UserRequest) : Bytes := stringField "pin" r.body

def parent (r : UserRequest) : Bytes := stringField "parent" r.body

def address (r : UserRequest) : Bytes := stringField "address" r.body

end UserRequest

namespace PoolServer

variable {D : Doubles}

/-- The parent, if it is a user other than the new one, gets the new one as a child. -/
def adopt (parent addr : Bytes) (users : OrdMap Bytes PoolUserRecord) : OrdMap Bytes PoolUserRecord :=
  if parent ≠ [] ∧ users.contains parent ∧ parent ≠ addr then
    users.mapWithKey fun key u => if key = parent then { u with children := u.children ++ [addr] } else u
  else users

/-- A user takes the next number, is entered, and the state is saved. -/
def addUser (addr username parent : Bytes) (now : UInt64) (s : PoolServer D) : PoolUserRecord × PoolServer D :=
  let number := s.state.nextUserNumber.toUInt32
  let u : PoolUserRecord :=
    { address := addr, username := username, parent := parent, children := [], joinedAt := now, userNumber := number
      isFounder := number ≤ 1000 }
  (u,
    { s with
      state :=
        { s.state with
          nextUserNumber := s.state.nextUserNumber + 1, totalRegistered := s.state.totalRegistered + 1
          users := (adopt parent addr s.state.users).insert addr u } }.saved)

def registerAddress (r : UserRequest) : Guarded (PoolServer D) UserReply := fun owner s =>
  if r.address.isEmpty then .done (.failed 400 "username+pin or address required") s
  else
    lockGuard (fun _ s =>
      let s := s.loadOnce
      match s.state.users.find? r.address with
      | some u => .done (.registered true u.userNumber u.isFounder s.state.totalRegistered) s
      | none =>
        let (u, s) := s.addUser r.address [] r.parent r.now
        .done (.registered false u.userNumber u.isFounder s.state.totalRegistered) s) owner s

/-- The form with a user name. The second guard is inside the first. -/
def registerUsername (r : UserRequest) : Guarded (PoolServer D) UserReply := fun owner s =>
  if r.username.length < 3 ∨ r.username.length > 32 then .done (.failed 400 "Username must be 3-32 characters") s
  else if r.pin.length < 4 ∨ r.pin.length > 12 then .done (.failed 400 "PIN must be 4-12 digits") s
  else if !r.username.all usernameByte then .done (.failed 400 "Username: only letters, digits, _ and -") s
  else
    lockGuard (fun owner s =>
      let s := s.loadOnce
      if s.state.users.entries.any fun kv => kv.2.username = r.username then .done (.failed 200 "Username already taken") s
      else match r.generated with
        | .error e => .done (.failed 500 e.what) s
        | .ok wallet =>
          if wallet.address.isEmpty then .done (.failed 500 "failed to derive wallet address") s
          else match r.encrypted with
            | .error e => .done (.failed 500 e.what) s
            | .ok () =>
              lockGuard (fun _ s =>
                let s := s.loadOnce
                let (u, s) := s.addUser wallet.address r.username r.parent r.now
                .done (.created wallet r.username u.userNumber u.isFounder s.state.totalRegistered) s) owner s) owner s

/-- `/api/user/register`. -/
def userRegister (r : UserRequest) : Guarded (PoolServer D) UserReply :=
  if r.username.isEmpty || r.pin.isEmpty then registerAddress r else registerUsername r

end PoolServer

/-! ## Requests one after the other -/

/-- The server between two requests. `stuck`: a handler holds the mutex and waits for it. -/
structure Registrar (D : Doubles) where
  server : PoolServer D
  stuck : Bool

namespace Registrar

variable {D : Doubles}

def ending (w : Registrar D) (r : UserRequest) : Ending (PoolServer D) UserReply :=
  w.server.userRegister r (if w.stuck then .other else .nobody)

def step (w : Registrar D) (r : UserRequest) : Registrar D :=
  match w.ending r with
  | .done _ server => ⟨server, w.stuck⟩
  | .selfLock server => ⟨server, true⟩
  | .blocked server => ⟨server, w.stuck⟩

def run (requests : List UserRequest) (w : Registrar D) : Registrar D := requests.foldl step w

/-- The state as a handler finds it, read from the file if it was not read yet. -/
def registry (w : Registrar D) : PoolState D := w.server.loadOnce.state

end Registrar

end Caesar
