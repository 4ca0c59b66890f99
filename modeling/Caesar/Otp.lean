import Caesar.Lib.OrdMap
import Caesar.Lib.Text

/-!
# One-time codes

`OtpStore` keeps one code for each identifier. Every change is written to a text
file, one line for an entry and its fields between blanks, and the file is read
again when the server starts.
-/

namespace Caesar

open Codec Text

/-- What `now_unix` can return: a clock of 64-bit nanoseconds, in seconds. -/
structure UnixTime where
  seconds : Int
  bounded : -9223372036 ≤ seconds ∧ seconds ≤ 9223372036

structure OtpEntry where
  code : Bytes
  createdAtUnix : Int
  expiresAtUnix : Int
  attempts : Int
  deriving DecidableEq

/-- The entries, and the file once there is one. -/
structure OtpStore where
  entries : OrdMap Bytes OtpEntry
  file : Option Bytes
  deriving DecidableEq

def generateCode (value : UInt32) : Bytes :=
  let code := decimal (value % 1000000).toNat
  List.replicate (6 - code.length) 48 ++ code

/-! ## The file -/

def OtpEntry.line (id : Bytes) (e : OtpEntry) : Bytes :=
  id ++ 32 :: (e.code ++ 32 :: (printInt e.createdAtUnix ++ 32 :: (printInt e.expiresAtUnix ++ 32 :: printInt e.attempts)))

/-- What the chain of extractions makes of a line; the fields are read up to the next blank. -/
def OtpEntry.read (line : Bytes) : Option (Bytes × OtpEntry) := do
  let (id, rest) ← readWord line
  let (code, rest) ← readWord rest
  let (createdAtUnix, rest) ← readInt 64 rest
  let (expiresAtUnix, rest) ← readInt 64 rest
  let (attempts, _) ← readInt 32 rest
  some (id, ⟨code, createdAtUnix, expiresAtUnix, attempts⟩)

namespace OtpStore

def fileText (entries : OrdMap Bytes OtpEntry) : Bytes := unlines (entries.entries.map fun kv => kv.2.line kv.1)

def readLine (entries : OrdMap Bytes OtpEntry) (line : Bytes) : OrdMap Bytes OtpEntry :=
  match OtpEntry.read line with
  | some (id, e) => entries.insert id e
  | none => entries

def load (file : Option Bytes) : OtpStore :=
  match file with
  | none => ⟨.empty, none⟩
  | some text => ⟨(lines text).foldl readLine .empty, some text⟩

def save (entries : OrdMap Bytes OtpEntry) : OtpStore := ⟨entries, some (fileText entries)⟩

/-! ## The calls -/

def ttlSeconds : Int := 300

/-- `create`, with the word that `RAND_bytes` gave. When it fails the call throws and nothing changes. -/
def create (identifier : Bytes) (random : Option UInt32) (now : UnixTime) (store : OtpStore) : OtpStore :=
  match random with
  | none => store
  | some value => save (store.entries.insert identifier ⟨generateCode value, now.seconds, now.seconds + ttlSeconds, 0⟩)

/-- How a call of `verify` ended. -/
inductive Verdict where
  | missing
  | expired
  | exhausted
  | compared (expected submitted : Bytes)
  deriving DecidableEq

def Verdict.isCompared : Verdict → Bool
  | compared _ _ => true
  | _ => false

def Verdict.accepted : Verdict → Bool
  | compared expected submitted => expected = submitted
  | _ => false

def verify (identifier code : Bytes) (now : UnixTime) (store : OtpStore) : Verdict × OtpStore :=
  match store.entries.find? identifier with
  | none => (.missing, store)
  | some e =>
    if now.seconds > e.expiresAtUnix then (.expired, save (store.entries.erase identifier))
    else
      let e := { e with attempts := e.attempts + 1 }
      if e.attempts > 5 then (.exhausted, save (store.entries.erase identifier))
      else if e.code = code then (.compared e.code code, save (store.entries.erase identifier))
      else (.compared e.code code, save (store.entries.insert identifier e))

/-! ## Runs -/

inductive Event where
  | create (identifier : Bytes) (random : Option UInt32) (now : UnixTime)
  | verify (identifier code : Bytes) (now : UnixTime)
  | restart

def step (store : OtpStore) : Event → OtpStore
  | .create identifier random now => store.create identifier random now
  | .verify identifier code now => (store.verify identifier code now).2
  | .restart => load store.file

def run (events : List Event) (store : OtpStore) : OtpStore := events.foldl step store

/-- The calls of `verify` for an identifier: when each was made and how it ended. -/
def verdicts (identifier : Bytes) : List Event → OtpStore → List (UnixTime × Verdict)
  | [], _ => []
  | .verify id code now :: rest, store =>
    if id = identifier then (now, (store.verify id code now).1) :: verdicts identifier rest (store.verify id code now).2
    else verdicts identifier rest (store.verify id code now).2
  | event :: rest, store => verdicts identifier rest (store.step event)

/-- The event puts a code for the identifier into the store. -/
def Event.Creates (identifier : Bytes) : Event → Prop
  | .create id random _ => id = identifier ∧ random.isSome
  | _ => False

end OtpStore

end Caesar
