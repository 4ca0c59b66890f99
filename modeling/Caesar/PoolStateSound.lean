import Caesar.PoolState

/-!
# What the state file of the pool gives back

The components of the state are written to lines of their own, so after a reload
each is what its lines say. Workers and payouts are read as they were written
when no text in them has a bar or a newline. The children of a user are read
from the field of the user name, so they come back only by accident.
-/

namespace Caesar

open Codec Text

/-! ## Lines -/

theorem StateKey.ofName_name (key : StateKey) : ofName key.name = some key := by
  cases key <;> decide +kernel

theorem StateKey.name_clean (key : StateKey) :
    61 ∉ key.name ∧ newline ∉ key.name ∧ key.name ≠ [] ∧ key.name.head? ≠ some 35 := by
  cases key <;> decide +kernel

namespace PoolState

variable {D : Doubles}

theorem readLine_field (st : PoolState D) (kv : StateKey × Bytes) :
    st.readLine (kv.1.name ++ 61 :: kv.2) = st.put kv := by
  obtain ⟨heq, -, hne, hhash⟩ := kv.1.name_clean
  have hskip : ((kv.1.name ++ 61 :: kv.2).isEmpty || decide ((kv.1.name ++ 61 :: kv.2).head? = some 35)) = false := by
    rw [List.head?_append_of_ne_nil _ hne]
    simpa using hhash
  rw [readLine, hskip, if_neg Bool.false_ne_true, cut_append heq]
  simp only [StateKey.ofName_name]

theorem load_save {st : PoolState D} (h : ∀ kv ∈ st.fields, newline ∉ kv.2) (before : PoolState D) :
    before.load (some st.save) = st.fields.foldl put before.cleared := by
  have hlines : lines st.save = st.fields.map fun kv => kv.1.name ++ 61 :: kv.2 := by
    refine lines_unlines fun line hl => ?_
    obtain ⟨kv, hmem, rfl⟩ := List.mem_map.mp hl
    have heq : newline ≠ 61 := by decide
    simp [kv.1.name_clean.2.1, heq, h kv hmem]
  calc before.load (some st.save)
      = (st.fields.map fun kv => kv.1.name ++ 61 :: kv.2).foldl readLine before.cleared := by rw [load, hlines]
    _ = st.fields.foldl (fun st kv => st.readLine (kv.1.name ++ 61 :: kv.2)) before.cleared := List.foldl_map
    _ = st.fields.foldl put before.cleared := by simp only [readLine_field]

def values (key : StateKey) (kvs : List (StateKey × Bytes)) : List Bytes := (kvs.filter fun kv => kv.1 = key).map Prod.snd

/-- A component that only the lines of one key change is what they make of it. -/
theorem foldl_put {β : Type} {g : PoolState D → β} {k : StateKey} {u : β → Bytes → β}
    (hself : ∀ st val, g (st.put (k, val)) = u (g st) val)
    (hother : ∀ st kv, kv.1 ≠ k → g (st.put kv) = g st) : ∀ (kvs : List (StateKey × Bytes)) (st : PoolState D),
    g (kvs.foldl put st) = (values k kvs).foldl u (g st)
  | [], _ => rfl
  | kv :: rest, st => by
    rw [List.foldl_cons, foldl_put hself hother rest]
    by_cases hk : kv.1 = k
    · have hkv : kv = (k, kv.2) := Prod.ext hk rfl
      rw [values, values, List.filter_cons_of_pos (by simpa using hk), List.map_cons, List.foldl_cons, hkv, hself]
    · rw [values, values, List.filter_cons_of_neg (by simpa using hk), hother st kv hk]

theorem put_cases (st : PoolState D) (kv : StateKey × Bytes) : st.put kv = st ∨ st.assign kv.1 kv.2 = some (st.put kv) := by
  rw [put]
  cases st.assign kv.1 kv.2 with
  | none => exact Or.inl rfl
  | some after => exact Or.inr rfl

theorem put_self (st : PoolState D) (val : Bytes) :
    (st.put (.worker, val)).workers = ((readWorker val).map fun w => st.workers.insert w.address w).getD st.workers ∧
      (st.put (.payout, val)).payouts = ((readPayout val).map fun r => st.payouts ++ [r]).getD st.payouts ∧
        (st.put (.reguser, val)).users = ((readUser val).map fun u => st.users.insert u.address u).getD st.users ∧
          (st.put (.totalShares, val)).totalShares = (stoull val).getD st.totalShares ∧
            (st.put (.user, val)).allUsers = st.allUsers.insert val () := by
  simp only [put, assign]
  refine ⟨?_, ?_, ?_, ?_, rfl⟩
  · cases readWorker val <;> rfl
  · cases readPayout val <;> rfl
  · cases readUser val <;> rfl
  · cases stoull val <;> rfl

theorem put_other (st : PoolState D) (kv : StateKey × Bytes) :
    (kv.1 ≠ .worker → (st.put kv).workers = st.workers) ∧ (kv.1 ≠ .payout → (st.put kv).payouts = st.payouts) ∧
      (kv.1 ≠ .reguser → (st.put kv).users = st.users) ∧
        (kv.1 ≠ .totalShares → (st.put kv).totalShares = st.totalShares) ∧
          (kv.1 ≠ .user → (st.put kv).allUsers = st.allUsers) := by
  obtain ⟨key, val⟩ := kv
  rcases put_cases st (key, val) with hsame | hsome
  · simp only [hsame, implies_true, and_self]
  · generalize st.put (key, val) = after at hsome ⊢
    cases key <;>
      (simp only [assign, Option.map_eq_some_iff, Option.some.injEq] at hsome; obtain ⟨n, -, rfl⟩ := hsome; simp)

theorem values_map {α : Type} {key k : StateKey} {f : α → Bytes} (xs : List α) :
    values key (xs.map fun x => (k, f x)) = if k = key then xs.map f else [] := by
  by_cases hk : k = key
  · simp [values, List.filter_map, Function.comp_def, hk]
  · simp [values, List.filter_map, Function.comp_def, hk]

theorem values_append (key : StateKey) (as bs : List (StateKey × Bytes)) :
    values key (as ++ bs) = values key as ++ values key bs := by
  simp [values]

theorem values_worker (st : PoolState D) : values .worker st.fields = st.workers.entries.map fun kv => kv.2.text := by
  rw [fields]
  simp only [values_append, values_map]
  simp [values]

theorem values_payout (st : PoolState D) : values .payout st.fields = st.payouts.map PoolPayoutRecord.text := by
  rw [fields]
  simp only [values_append, values_map]
  simp [values]

theorem values_reguser (st : PoolState D) : values .reguser st.fields = st.users.entries.map fun kv => kv.2.text := by
  rw [fields]
  simp only [values_append, values_map]
  simp [values]

theorem values_user (st : PoolState D) : values .user st.fields = st.allUsers.entries.map Prod.fst := by
  rw [fields]
  simp only [values_append, values_map]
  simp [values]

theorem values_totalShares (st : PoolState D) : values .totalShares st.fields = [decimal st.totalShares.toNat] := by
  rw [fields]
  simp only [values_append, values_map]
  simp [values]

end PoolState

/-! ## Records -/

theorem splitOn_bars {fields : List Bytes} (h : ∀ f ∈ fields, 124 ∉ f) (hne : fields ≠ []) :
    (bars fields).splitOn 124 = fields :=
  List.splitOn_intercalate 124 h hne

theorem bar_not_mem_flag (b : Bool) : 124 ∉ flag b := by
  cases b <;> decide +kernel

theorem readWorker_text {w : PoolWorkerInfo} (ha : 124 ∉ w.address) (hn : 124 ∉ w.workerName) :
    readWorker w.text = some w := by
  have hfields : ∀ f ∈ [w.address, w.workerName, decimal w.shares.toNat, decimal w.sharesPending.toNat,
      decimal w.lastSeen.toNat], 124 ∉ f := by
    simp [ha, hn, not_mem_decimal (show isDigit 124 = false from rfl)]
  rw [readWorker, PoolWorkerInfo.text, splitOn_bars hfields (by simp)]
  simp [stoull_decimal]

theorem readPayout_text {r : PoolPayoutRecord} (h : 124 ∉ r.txid) : readPayout r.text = some r := by
  have hfields : ∀ f ∈ [decimal r.timestamp.toNat, decimal r.blockHeight.toNat, r.txid, decimal r.totalAmount.toNat,
      decimal r.feeAmount.toNat, decimal r.recipientCount.toNat], 124 ∉ f := by
    simp [h, not_mem_decimal (show isDigit 124 = false from rfl)]
  rw [readPayout, PoolPayoutRecord.text, splitOn_bars hfields (by simp)]
  simp [stoull_decimal]

/-- What the file makes of a user: the name is read once more as the list of children. -/
def PoolUserRecord.reloaded (u : PoolUserRecord) : PoolUserRecord :=
  { u with children := if u.username = [] then [] else [u.username] }

/-- No text of the user has a bar, a comma or a newline, and no child is empty. -/
structure PoolUserRecord.Plain (u : PoolUserRecord) : Prop where
  bar : 124 ∉ u.address ∧ 124 ∉ u.parent ∧ 124 ∉ u.username ∧ ∀ child ∈ u.children, 124 ∉ child
  comma : 44 ∉ u.address ∧ 44 ∉ u.parent ∧ 44 ∉ u.username ∧ ∀ child ∈ u.children, 44 ∉ child
  line : newline ∉ u.address ∧ newline ∉ u.parent ∧ newline ∉ u.username ∧ ∀ child ∈ u.children, newline ∉ child
  child : ∀ child ∈ u.children, child ≠ []

theorem readUser_text {u : PoolUserRecord} (h : u.Plain) : readUser u.text = some u.reloaded := by
  have hchildren : 124 ∉ [44].intercalate u.children := not_mem_intercalate (by decide) h.bar.2.2.2
  have hfields : ∀ f ∈ [u.address, u.parent, decimal u.userNumber.toNat, decimal u.joinedAt.toNat, flag u.isFounder,
      u.username, [44].intercalate u.children], 124 ∉ f := by
    simp [h.bar.1, h.bar.2.1, h.bar.2.2.1, hchildren, bar_not_mem_flag, not_mem_decimal (show isDigit 124 = false from rfl)]
  have hnumber : stoull (decimal u.userNumber.toNat) = some u.userNumber.toUInt64 := by
    rw [← UInt32.toNat_toUInt64, stoull_decimal]
  have hfounder : decide (flag u.isFounder = ascii "1") = u.isFounder := by
    cases u.isFounder <;> decide +kernel
  rw [readUser, PoolUserRecord.text, splitOn_bars hfields (by simp)]
  by_cases hname : u.username = []
  · simp [hnumber, stoull_decimal, hfounder, hname, PoolUserRecord.reloaded]
  · have hsplit : u.username.splitOn 44 = [u.username] := by
      have hone : [44].intercalate [u.username] = u.username := by simp
      rw [← hone, List.splitOn_intercalate 44 (by simpa using h.comma.2.2.1) (by simp), hone]
    simp [hnumber, stoull_decimal, hfounder, hname, hsplit, PoolUserRecord.reloaded]

theorem newline_bars {fields : List Bytes} (h : ∀ f ∈ fields, newline ∉ f) : newline ∉ bars fields :=
  not_mem_intercalate (by decide) h

theorem newline_decimal (n : Nat) : newline ∉ decimal n := not_mem_decimal rfl n

theorem newline_flag (b : Bool) : newline ∉ flag b := by
  cases b <;> decide +kernel

theorem newline_worker {w : PoolWorkerInfo} : newline ∉ w.address → newline ∉ w.workerName → newline ∉ w.text := by
  intro ha hn
  refine newline_bars ?_
  simp [ha, hn, newline_decimal]

theorem newline_payout {r : PoolPayoutRecord} : newline ∉ r.txid → newline ∉ r.text := by
  intro h
  refine newline_bars ?_
  simp [h, newline_decimal]

theorem newline_user {u : PoolUserRecord} (h : u.Plain) : newline ∉ u.text := by
  have hchildren : newline ∉ [44].intercalate u.children := not_mem_intercalate (by decide) h.line.2.2.2
  refine newline_bars ?_
  simp [h.line.1, h.line.2.1, h.line.2.2.1, hchildren, newline_decimal, newline_flag]

/-! ## The state after a reload -/

namespace PoolState

variable {D : Doubles} {st : PoolState D}

structure Lined (st : PoolState D) : Prop where
  allUsers : ∀ kv ∈ st.allUsers.entries, newline ∉ kv.1
  users : ∀ kv ∈ st.users.entries, newline ∉ kv.2.text
  workers : ∀ kv ∈ st.workers.entries, newline ∉ kv.2.text
  payouts : ∀ r ∈ st.payouts, newline ∉ r.text

theorem Lined.fields (h : st.Lined) : ∀ kv ∈ st.fields, newline ∉ kv.2 := by
  simp only [PoolState.fields, List.forall_mem_append, List.forall_mem_map, List.forall_mem_cons, List.not_mem_nil,
    false_implies, implies_true, and_true]
  exact ⟨⟨⟨⟨⟨⟨newline_decimal _, newline_decimal _, newline_decimal _, D.print_line _, newline_flag _, newline_decimal _,
    newline_decimal _, newline_decimal _⟩, h.allUsers⟩, newline_decimal _, newline_decimal _⟩, h.users⟩, h.workers⟩,
    h.payouts⟩

/-- The entries of a map, each read back from its line, give the map with the values as they were read. -/
theorem foldl_records {V : Type} {m : OrdMap Bytes V} {text : V → Bytes} {read : Bytes → Option V} {address : V → Bytes}
    {f : V → V} (h : ∀ kv ∈ m.entries, read (text kv.2) = some (f kv.2) ∧ address (f kv.2) = kv.1) :
    (m.entries.map fun kv => text kv.2).foldl (fun n val => ((read val).map fun v => n.insert (address v) v).getD n) .empty =
      m.mapWithKey fun _ => f := by
  rw [List.foldl_map]
  calc m.entries.foldl (fun n kv => ((read (text kv.2)).map fun v => n.insert (address v) v).getD n) .empty
      = m.entries.foldl (fun n kv => n.insert kv.1 (f kv.2)) .empty := by
        refine List.foldl_ext _ _ _ fun n kv hmem => ?_
        rw [(h kv hmem).1, Option.map_some, Option.getD_some, (h kv hmem).2]
    _ = (m.mapWithKey fun _ => f).entries.foldl (fun n kv => n.insert kv.1 kv.2) .empty := by
      rw [OrdMap.mapWithKey, List.foldl_map]
    _ = m.mapWithKey fun _ => f := OrdMap.foldl_insert _

theorem load_users (h : st.Lined) (hkey : ∀ kv ∈ st.users.entries, kv.1 = kv.2.address)
    (hplain : ∀ kv ∈ st.users.entries, kv.2.Plain) (before : PoolState D) :
    (before.load (some st.save)).users = st.users.mapWithKey fun _ => PoolUserRecord.reloaded := by
  rw [load_save h.fields, foldl_put (g := users) (k := .reguser)
    (u := fun m val => ((readUser val).map fun u => m.insert u.address u).getD m)
    (fun st val => (put_self st val).2.2.1) fun st kv => (put_other st kv).2.2.1, values_reguser]
  exact foldl_records fun kv hmem => ⟨readUser_text (hplain kv hmem), (hkey kv hmem).symm⟩

theorem load_workers (h : st.Lined) (hkey : ∀ kv ∈ st.workers.entries, kv.1 = kv.2.address)
    (hbar : ∀ kv ∈ st.workers.entries, 124 ∉ kv.2.address ∧ 124 ∉ kv.2.workerName) (before : PoolState D) :
    (before.load (some st.save)).workers = st.workers := by
  rw [load_save h.fields, foldl_put (g := workers) (k := .worker)
    (u := fun m val => ((readWorker val).map fun w => m.insert w.address w).getD m)
    (fun st val => (put_self st val).1) fun st kv => (put_other st kv).1, values_worker]
  refine (foldl_records (f := id) fun kv hmem => ?_).trans (OrdMap.mapWithKey_eq_self.mpr fun _ _ => rfl)
  exact ⟨readWorker_text (hbar kv hmem).1 (hbar kv hmem).2, (hkey kv hmem).symm⟩

theorem foldl_payouts : ∀ (rs done : List PoolPayoutRecord), (∀ r ∈ rs, 124 ∉ r.txid) →
    (rs.map PoolPayoutRecord.text).foldl (fun done val => ((readPayout val).map fun r => done ++ [r]).getD done) done =
      done ++ rs
  | [], done, _ => (List.append_nil done).symm
  | r :: rest, done, h => by
    rw [List.forall_mem_cons] at h
    rw [List.map_cons, List.foldl_cons, readPayout_text h.1, Option.map_some, Option.getD_some, foldl_payouts rest _ h.2,
      List.append_assoc, List.singleton_append]

theorem load_payouts (h : st.Lined) (hbar : ∀ r ∈ st.payouts, 124 ∉ r.txid) (before : PoolState D) :
    (before.load (some st.save)).payouts = st.payouts := by
  rw [load_save h.fields, foldl_put (g := payouts) (k := .payout)
    (u := fun done val => ((readPayout val).map fun r => done ++ [r]).getD done)
    (fun st val => (put_self st val).2.1) fun st kv => (put_other st kv).2.1, values_payout]
  exact foldl_payouts st.payouts [] hbar

theorem load_totalShares (h : st.Lined) (before : PoolState D) :
    (before.load (some st.save)).totalShares = st.totalShares := by
  rw [load_save h.fields, foldl_put (g := totalShares) (k := .totalShares) (u := fun total val => (stoull val).getD total)
    (fun st val => (put_self st val).2.2.2.1) fun st kv => (put_other st kv).2.2.2.1, values_totalShares]
  simp [stoull_decimal]

theorem load_allUsers (h : st.Lined) (before : PoolState D) : (before.load (some st.save)).allUsers = st.allUsers := by
  rw [load_save h.fields, foldl_put (g := allUsers) (k := .user) (u := fun m val => m.insert val ())
    (fun st val => (put_self st val).2.2.2.2) fun st kv => (put_other st kv).2.2.2.2, values_user, List.foldl_map]
  exact OrdMap.foldl_insert st.allUsers

/-- With plain texts, a reload gives the users back exactly when the only child of each is its own name. -/
theorem referral_tree_restored_iff (st before : PoolState D) (hkey : ∀ kv ∈ st.users.entries, kv.1 = kv.2.address)
    (hplain : ∀ kv ∈ st.users.entries, kv.2.Plain) (hall : ∀ kv ∈ st.allUsers.entries, newline ∉ kv.1)
    (hworkers : ∀ kv ∈ st.workers.entries, newline ∉ kv.2.address ∧ newline ∉ kv.2.workerName)
    (hpayouts : ∀ r ∈ st.payouts, newline ∉ r.txid) :
    (before.load (some st.save)).users = st.users ↔
      ∀ kv ∈ st.users.entries, kv.2.children = if kv.2.username = [] then [] else [kv.2.username] := by
  have hlined : st.Lined :=
    ⟨hall, fun kv hmem => newline_user (hplain kv hmem),
      fun kv hmem => newline_worker (hworkers kv hmem).1 (hworkers kv hmem).2, fun r hmem => newline_payout (hpayouts r hmem)⟩
  rw [load_users hlined hkey hplain before, OrdMap.mapWithKey_eq_self]
  refine forall₂_congr fun kv hmem => ⟨fun h => ?_, fun h => ?_⟩
  · exact (congrArg PoolUserRecord.children h).symm
  · rw [PoolUserRecord.reloaded, ← h]

end PoolState

def toyDoubles : Doubles := ⟨Unit, fun _ => ascii "35", fun _ => some (), fun _ => by decide +kernel⟩

def toyTree : PoolState toyDoubles :=
  { PoolState.initial toyDoubles () with
    users := (OrdMap.empty.insert (ascii "CZa") ⟨ascii "CZa", [], [], [ascii "CZb"], 100, 1, true⟩).insert (ascii "CZb")
      ⟨ascii "CZb", [], ascii "CZa", [], 101, 2, true⟩ }

/-- The child that a user referred is gone after a reload. -/
theorem child_lost_on_reload :
    (∀ kv ∈ toyTree.users.entries, kv.1 = kv.2.address ∧ kv.2.Plain) ∧
      (toyTree.users.find? (ascii "CZa")).map PoolUserRecord.children = some [ascii "CZb"] ∧
        ((toyTree.load (some toyTree.save)).users.find? (ascii "CZa")).map PoolUserRecord.children = some [] := by
  have hentries : toyTree.users.entries =
      [(ascii "CZa", ⟨ascii "CZa", [], [], [ascii "CZb"], 100, 1, true⟩),
        (ascii "CZb", ⟨ascii "CZb", [], ascii "CZa", [], 101, 2, true⟩)] := by decide +kernel
  refine ⟨?_, by decide +kernel, by decide +kernel⟩
  rw [hentries, List.forall_mem_cons, List.forall_mem_singleton]
  exact ⟨⟨rfl, by decide +kernel, by decide +kernel, by decide +kernel, by decide +kernel⟩,
    ⟨rfl, by decide +kernel, by decide +kernel, by decide +kernel, by decide +kernel⟩⟩

/-- The first user bears the address of the second as a name. -/
def toyPair : PoolState toyDoubles :=
  { PoolState.initial toyDoubles () with
    users := (OrdMap.empty.insert (ascii "CZa") ⟨ascii "CZa", ascii "CZb", [], [ascii "CZb"], 100, 1, true⟩).insert
      (ascii "CZb") ⟨ascii "CZb", [], ascii "CZa", [], 101, 2, true⟩ }

theorem referral_tree_restored_pair : (toyPair.load (some toyPair.save)).users = toyPair.users := by
  have hentries : toyPair.users.entries =
      [(ascii "CZa", ⟨ascii "CZa", ascii "CZb", [], [ascii "CZb"], 100, 1, true⟩),
        (ascii "CZb", ⟨ascii "CZb", [], ascii "CZa", [], 101, 2, true⟩)] := by decide +kernel
  refine (PoolState.referral_tree_restored_iff toyPair toyPair ?_ ?_ nofun nofun nofun).mpr ?_
  · rw [hentries, List.forall_mem_cons, List.forall_mem_singleton]
    exact ⟨rfl, rfl⟩
  · rw [hentries, List.forall_mem_cons, List.forall_mem_singleton]
    exact ⟨⟨by decide +kernel, by decide +kernel, by decide +kernel, by decide +kernel⟩,
      ⟨by decide +kernel, by decide +kernel, by decide +kernel, by decide +kernel⟩⟩
  · rw [hentries, List.forall_mem_cons, List.forall_mem_singleton]
    exact ⟨rfl, rfl⟩

end Caesar
