import Caesar.Otp

/-!
# One-time codes across restarts

An identifier is written to the file as it is, and read back up to the first
blank. So what a restart brings back are the entries of the store when no
identifier has a blank in it; with blanks an identifier can spell the entry of
another one, with a code of its choice.
-/

namespace Caesar

open Codec Text

/-! ## Lines -/

structure OtpEntry.Printable (e : OtpEntry) : Prop where
  code_ne : e.code ≠ []
  code_word : ∀ b ∈ e.code, isSpace b = false
  created : Fits 64 e.createdAtUnix
  expires : Fits 64 e.expiresAtUnix
  attempts : Fits 32 e.attempts

theorem isSpace_printInt {i : Int} {b : UInt8} (h : b ∈ printInt i) : isSpace b = false := by
  rcases isDigit_or_minus_of_printInt h with h | rfl
  · exact isSpace_of_isDigit h
  · rfl

theorem printInt_ne_nil (i : Int) : printInt i ≠ [] := by
  rw [printInt]
  split
  · simp
  · exact decimal_ne_nil _

theorem readWord_field {word rest : Bytes} (hne : word ≠ []) (hw : ∀ b ∈ word, isSpace b = false) :
    readWord (word ++ 32 :: rest) = some (word, 32 :: rest) :=
  readWord_word hne hw (by simp [isSpace])

theorem readInt_field {w : Nat} {i : Int} {rest : Bytes} (hi : Fits w i) :
    readInt w (32 :: (printInt i ++ 32 :: rest)) = some (i, 32 :: rest) :=
  readInt_printInt (by simp [isDigit]) hi

theorem readInt_last {w : Nat} {i : Int} (hi : Fits w i) :
    readInt w (32 :: printInt i) = some (i, []) := by
  have h : readInt w (32 :: (printInt i ++ [])) = some (i, []) := readInt_printInt (by simp) hi
  rwa [List.append_nil] at h

namespace OtpEntry

variable {e : OtpEntry}

theorem read_line {id : Bytes} (he : e.Printable) (hne : id ≠ []) (hid : ∀ b ∈ id, isSpace b = false) :
    read (e.line id) = some (id, e) := by
  simp only [read, line, readWord_field hne hid, Option.bind_eq_bind, Option.bind_some,
    readWord_space (show isSpace 32 from rfl), readWord_field he.code_ne he.code_word, readInt_field he.created,
    readInt_field he.expires, readInt_last he.attempts]

theorem read_line_nil (he : e.Printable) : read (e.line []) = none := by
  have hattempts : Fits 64 e.attempts := by
    obtain ⟨h, h'⟩ := he.attempts
    omega
  have hend : readInt 32 [] = none := rfl
  simp only [read, line, List.nil_append, readWord_space (show isSpace 32 from rfl), readWord_field he.code_ne he.code_word,
    Option.bind_eq_bind, Option.bind_some, readWord_field (printInt_ne_nil _) fun _ => isSpace_printInt,
    readInt_field he.expires, readInt_last hattempts, hend, Option.bind_none]

theorem newline_line {id : Bytes} (he : e.Printable) (hid : ∀ b ∈ id, isSpace b = false) : newline ∉ e.line id := by
  have hword : ∀ {w : Bytes}, (∀ b ∈ w, isSpace b = false) → newline ∉ w := by
    intro w hw hmem
    have h := hw newline hmem
    revert h
    decide
  have hsp : newline ≠ 32 := by decide
  have hint : ∀ i : Int, newline ∉ printInt i := fun i => hword fun _ => isSpace_printInt
  simp only [line, List.mem_append, List.mem_cons, hword hid, hword he.code_word, hint, hsp, or_self, not_false_eq_true]

end OtpEntry

/-! ## The file -/

namespace OtpStore

variable {store : OtpStore} {id : Bytes}

/-- No identifier has a blank in it. -/
def Clean (store : OtpStore) : Prop := ∀ p ∈ store.entries.entries, ∀ b ∈ p.1, isSpace b = false

theorem load_fileText {m : OrdMap Bytes OtpEntry} (hp : ∀ p ∈ m.entries, p.2.Printable)
    (hc : ∀ p ∈ m.entries, ∀ b ∈ p.1, isSpace b = false) : (load (some (fileText m))).entries = m.erase [] := by
  have hlines : lines (fileText m) = m.entries.map fun kv => kv.2.line kv.1 := by
    refine lines_unlines fun l hl => ?_
    obtain ⟨p, hmem, rfl⟩ := List.mem_map.mp hl
    exact OtpEntry.newline_line (hp p hmem) (hc p hmem)
  have hstep : ∀ p ∈ m.entries, ∀ n : OrdMap Bytes OtpEntry,
      readLine n (p.2.line p.1) = if p.1 ≠ [] then n.insert p.1 p.2 else n := by
    intro p hmem n
    by_cases hne : p.1 = []
    · rw [readLine, hne, OtpEntry.read_line_nil (hp p hmem), if_neg (by simp)]
    · rw [readLine, OtpEntry.read_line (hp p hmem) hne (hc p hmem), if_pos hne]
  calc (load (some (fileText m))).entries
      = (m.entries.map fun kv => kv.2.line kv.1).foldl readLine .empty := by rw [load, hlines]
    _ = m.entries.foldl (fun n p => readLine n (p.2.line p.1)) .empty := List.foldl_map
    _ = m.entries.foldl (fun n p => if p.1 ≠ [] then n.insert p.1 p.2 else n) .empty :=
      List.foldl_ext _ _ _ fun n p hmem => hstep p hmem n
    _ = (m.erase []).entries.foldl (fun n p => n.insert p.1 p.2) .empty := by
      rw [OrdMap.erase, List.foldl_filter]
      simp only [decide_eq_true_eq]
    _ = m.erase [] := OrdMap.foldl_insert _

/-- What a run with clean restarts keeps: the entries can be printed, and a restart brings them back. -/
structure Intact (store : OtpStore) : Prop where
  printable : ∀ p ∈ store.entries.entries, p.2.Printable
  reload : store.Clean → (load store.file).entries = store.entries.erase []

theorem Intact.saved {m : OrdMap Bytes OtpEntry} (h : ∀ p ∈ m.entries, p.2.Printable) : (save m).Intact :=
  ⟨h, fun hc => load_fileText h hc⟩

theorem Intact.insert {m : OrdMap Bytes OtpEntry} {e : OtpEntry} (h : ∀ p ∈ m.entries, p.2.Printable) (he : e.Printable) :
    (save (m.insert id e)).Intact := by
  refine .saved fun p hp => ?_
  rcases OrdMap.mem_insert hp with rfl | hp
  · exact he
  · exact h p hp

theorem Intact.erase {m : OrdMap Bytes OtpEntry} (h : ∀ p ∈ m.entries, p.2.Printable) : (save (m.erase id)).Intact :=
  .saved fun p hp => h p (List.mem_of_mem_filter hp)

theorem isDigit_generateCode {value : UInt32} {b : UInt8} (h : b ∈ generateCode value) : isDigit b := by
  rcases List.mem_append.mp h with h | h
  · rw [List.eq_of_mem_replicate h]
    decide
  · exact isDigit_decimal h

theorem printable_created (value : UInt32) (now : UnixTime) :
    OtpEntry.Printable ⟨generateCode value, now.seconds, now.seconds + ttlSeconds, 0⟩ where
  code_ne h := decimal_ne_nil _ (List.append_eq_nil_iff.mp h).2
  code_word _ hb := isSpace_of_isDigit (isDigit_generateCode hb)
  created := by have := now.bounded; simp only; omega
  expires := by have := now.bounded; simp only [ttlSeconds]; omega
  attempts := (by decide : Fits 32 0)

/-! ## One call -/

theorem verify_missing {code : Bytes} {now : UnixTime} (h : store.entries.find? id = none) :
    store.verify id code now = (.missing, store) := by
  rw [verify, h]

theorem verify_found {e : OtpEntry} (h : store.entries.find? id = some e) (code : Bytes) (now : UnixTime) :
    (((store.verify id code now).1.isCompared = false ∨
        ((store.verify id code now).1 = .compared e.code code ∧ now.seconds ≤ e.expiresAtUnix ∧ e.attempts + 1 ≤ 5 ∧
          e.code = code)) ∧
      (store.verify id code now).2 = save (store.entries.erase id)) ∨
    ((store.verify id code now).1 = .compared e.code code ∧ now.seconds ≤ e.expiresAtUnix ∧ e.attempts + 1 ≤ 5 ∧
      e.code ≠ code ∧ (store.verify id code now).2 = save (store.entries.insert id { e with attempts := e.attempts + 1 })) := by
  rw [verify, h]
  dsimp only
  by_cases ht : now.seconds > e.expiresAtUnix
  · rw [if_pos ht]
    exact Or.inl ⟨Or.inl rfl, rfl⟩
  · rw [if_neg ht]
    by_cases ha : e.attempts + 1 > 5
    · rw [if_pos ha]
      exact Or.inl ⟨Or.inl rfl, rfl⟩
    · rw [if_neg ha]
      by_cases hc : e.code = code
      · rw [if_pos hc]
        exact Or.inl ⟨Or.inr ⟨rfl, by omega, by omega, hc⟩, rfl⟩
      · rw [if_neg hc]
        exact Or.inr ⟨rfl, by omega, by omega, hc, rfl⟩

theorem Intact.verify {code : Bytes} {now : UnixTime} (h : store.Intact) : (store.verify id code now).2.Intact := by
  cases hfind : store.entries.find? id with
  | none => rwa [verify_missing hfind]
  | some e =>
    have he : e.Printable := h.printable (id, e) (OrdMap.mem_entries.mpr hfind)
    rcases verify_found hfind code now with ⟨_, hs⟩ | ⟨_, _, ha, _, hs⟩
    · rw [hs]
      exact .erase h.printable
    · rw [hs]
      have hattempts := he.attempts
      refine .insert h.printable ⟨he.code_ne, he.code_word, he.created, he.expires, ?_⟩
      dsimp only
      omega

/-! ## Whole runs -/

def CleanRestarts : List Event → OtpStore → Prop
  | [], _ => True
  | event :: rest, store => (event = .restart → store.Clean) ∧ CleanRestarts rest (store.step event)

theorem Intact.step {event : Event} (h : store.Intact) (hc : event = .restart → store.Clean) : (store.step event).Intact := by
  cases event with
  | create identifier random now =>
    cases random with
    | none => exact h
    | some value => exact .insert h.printable (printable_created value now)
  | verify identifier code now => exact h.verify
  | restart =>
    have hload := h.reload (hc rfl)
    have hfile : (store.step .restart).file = store.file := by
      rw [OtpStore.step]
      cases store.file with
      | none => rfl
      | some text => rfl
    refine ⟨fun p hp => ?_, fun _ => ?_⟩
    · rw [OtpStore.step, hload] at hp
      exact h.printable p (List.mem_of_mem_filter hp)
    · rw [hfile, OtpStore.step, hload]
      refine OrdMap.ext ?_
      simp [OrdMap.erase]

theorem find?_step {event : Event} (h : store.Intact) (hc : event = .restart → store.Clean) (hn : ¬ event.Creates id)
    (hv : ∀ code now, event ≠ .verify id code now) :
    (store.step event).entries.find? id = store.entries.find? id ∨ (store.step event).entries.find? id = none := by
  cases event with
  | create identifier random now =>
    cases random with
    | none => exact Or.inl rfl
    | some value =>
      have hne : identifier ≠ id := fun he => hn ⟨he, rfl⟩
      exact Or.inl ((OrdMap.find?_insert ..).trans (if_neg hne))
  | verify identifier code now =>
    have hne : identifier ≠ id := fun he => hv code now (he ▸ rfl)
    refine Or.inl ?_
    rw [OtpStore.step]
    cases hfind : store.entries.find? identifier with
    | none => rw [verify_missing hfind]
    | some e =>
      rcases verify_found hfind code now with ⟨_, hs⟩ | ⟨_, _, _, _, hs⟩
      · rw [hs, save, OrdMap.find?_erase, if_neg hne]
      · rw [hs, save, OrdMap.find?_insert, if_neg hne]
  | restart =>
    rw [OtpStore.step, h.reload (hc rfl), OrdMap.find?_erase]
    by_cases hid : [] = id
    · exact Or.inr (if_pos hid)
    · exact Or.inl (if_neg hid)

theorem verdicts_other {event : Event} {rest : List Event} (hv : ∀ code now, event ≠ .verify id code now) :
    verdicts id (event :: rest) store = verdicts id rest (store.step event) := by
  cases event with
  | create identifier random now => rfl
  | verify identifier code now =>
    have hne : identifier ≠ id := fun he => hv code now (he ▸ rfl)
    exact if_neg hne
  | restart => rfl

theorem verdicts_verify {code : Bytes} {now : UnixTime} {rest : List Event} :
    verdicts id (.verify id code now :: rest) store =
      (now, (store.verify id code now).1) :: verdicts id rest (store.verify id code now).2 :=
  if_pos rfl

theorem verdicts_missing : ∀ {events : List Event} {store : OtpStore}, store.Intact → CleanRestarts events store →
    (∀ event ∈ events, ¬ event.Creates id) → store.entries.find? id = none →
    ∀ v ∈ verdicts id events store, v.2.isCompared = false
  | [], _, _, _, _, _ => fun _ hv => (List.not_mem_nil hv).elim
  | event :: rest, store, h, ⟨hc, hrest⟩, hn, hfind => by
    rw [List.forall_mem_cons] at hn
    by_cases hv : ∃ code now, event = .verify id code now
    · obtain ⟨code, now, rfl⟩ := hv
      rw [verdicts_verify, verify_missing hfind]
      rw [OtpStore.step, verify_missing hfind] at hrest
      exact List.forall_mem_cons.mpr ⟨rfl, verdicts_missing h hrest hn.2 hfind⟩
    · have hv' : ∀ code now, event ≠ .verify id code now := fun code now he => hv ⟨code, now, he⟩
      rw [verdicts_other hv']
      refine verdicts_missing (h.step hc) hrest hn.2 ?_
      rcases find?_step h hc hn.1 hv' with he | he
      · rw [he, hfind]
      · exact he

/-- What the calls for one code may do: `used` comparisons were made before them. -/
structure Bounded (code : Bytes) (expires used : Int) (calls : List (UnixTime × Verdict)) : Prop where
  compared : (calls.countP fun v => v.2.isCompared) + used ≤ 5
  accepted : (calls.countP fun v => v.2.accepted) ≤ 1
  code : ∀ v ∈ calls, ∀ expected submitted, v.2 = .compared expected submitted → expected = code ∧ v.1.seconds ≤ expires

theorem accepted_isCompared : ∀ {v : Verdict}, v.accepted = true → v.isCompared = true
  | .compared _ _, _ => rfl

theorem Bounded.silent {code : Bytes} {expires used : Int} {calls : List (UnixTime × Verdict)} (hused : used ≤ 5)
    (h : ∀ v ∈ calls, v.2.isCompared = false) : Bounded code expires used calls where
  compared := by
    rw [List.countP_eq_zero.mpr fun v hv => by simp [h v hv]]
    omega
  accepted := by
    rw [List.countP_eq_zero.mpr fun v hv ha => by simpa [h v hv] using accepted_isCompared ha]
    omega
  code := by
    intro v hv expected submitted he
    have hf := h v hv
    rw [he] at hf
    exact absurd hf Bool.noConfusion

theorem Bounded.cons {code submitted : Bytes} {expires used : Int} {now : UnixTime} {calls : List (UnixTime × Verdict)}
    (h : Bounded code expires (used + 1) calls) (ht : now.seconds ≤ expires)
    (hlast : code = submitted → ∀ v ∈ calls, v.2.isCompared = false) :
    Bounded code expires used ((now, .compared code submitted) :: calls) where
  compared := by
    rw [List.countP_cons_of_pos rfl]
    have := h.compared
    omega
  accepted := by
    by_cases hs : code = submitted
    · have hrest : (calls.countP fun v => v.2.accepted) = 0 :=
        List.countP_eq_zero.mpr fun v hv ha => by simpa [hlast hs v hv] using accepted_isCompared ha
      rw [List.countP_cons_of_pos (by simpa [Verdict.accepted] using hs), hrest]
    · rw [List.countP_cons_of_neg (by simpa [Verdict.accepted] using hs)]
      exact h.accepted
  code := by
    refine List.forall_mem_cons.mpr ⟨fun expected s he => ?_, h.code⟩
    obtain ⟨rfl, _⟩ := Verdict.compared.inj he
    exact ⟨rfl, ht⟩

theorem verdicts_found : ∀ {events : List Event} {store : OtpStore} {e : OtpEntry}, store.Intact → CleanRestarts events store →
    (∀ event ∈ events, ¬ event.Creates id) → store.entries.find? id = some e → e.attempts ≤ 5 →
    Bounded e.code e.expiresAtUnix e.attempts (verdicts id events store)
  | [], _, _, _, _, _, _, ha => .silent ha fun _ hv => (List.not_mem_nil hv).elim
  | event :: rest, store, e, h, ⟨hc, hrest⟩, hn, hfind, ha => by
    rw [List.forall_mem_cons] at hn
    have hafter := h.step hc
    by_cases hv : ∃ code now, event = .verify id code now
    · obtain ⟨code, now, rfl⟩ := hv
      rw [verdicts_verify]
      rw [OtpStore.step] at hrest hafter
      rcases verify_found hfind code now with ⟨hend, hs⟩ | ⟨hv, ht, ha', hne, hs⟩
      · have hquiet : ∀ v ∈ verdicts id rest (store.verify id code now).2, v.2.isCompared = false := by
          refine verdicts_missing hafter hrest hn.2 ?_
          rw [hs, save, OrdMap.find?_erase, if_pos rfl]
        rcases hend with hend | ⟨hv, ht, ha', _⟩
        · exact .silent ha (List.forall_mem_cons.mpr ⟨hend, hquiet⟩)
        · rw [hv]
          exact (Bounded.silent ha' hquiet).cons ht fun _ => hquiet
      · have hkept : (store.verify id code now).2.entries.find? id = some { e with attempts := e.attempts + 1 } := by
          rw [hs, save, OrdMap.find?_insert, if_pos rfl]
        rw [hv]
        exact (verdicts_found hafter hrest hn.2 hkept ha').cons ht fun he => absurd he hne
    · have hv' : ∀ code now, event ≠ .verify id code now := fun code now he => hv ⟨code, now, he⟩
      rw [verdicts_other hv']
      rcases find?_step h hc hn.1 hv' with he | he
      · exact verdicts_found hafter hrest hn.2 (he.trans hfind) ha
      · exact .silent ha (verdicts_missing hafter hrest hn.2 he)

theorem run_cons (event : Event) (rest : List Event) (store : OtpStore) :
    run (event :: rest) store = run rest (store.step event) := rfl

theorem intact_run : ∀ {events : List Event} {store : OtpStore}, store.Intact → CleanRestarts events store →
    (run events store).Intact
  | [], _, h, _ => h
  | event :: rest, store, h, ⟨hc, hrest⟩ => by
    rw [run_cons]
    exact intact_run (h.step hc) hrest

theorem cleanRestarts_append {after : List Event} : ∀ {before : List Event} {store : OtpStore},
    CleanRestarts (before ++ after) store ↔ CleanRestarts before store ∧ CleanRestarts after (run before store)
  | [], _ => (true_and _).to_iff.symm
  | event :: rest, store => by
    rw [List.cons_append, CleanRestarts, CleanRestarts, cleanRestarts_append, and_assoc, run_cons]

theorem Intact.fresh : (load none).Intact :=
  ⟨fun _ hp => (List.not_mem_nil hp).elim, fun _ => rfl⟩

/-- While no identifier has a blank when the server restarts: a code is compared with at most five submitted codes, is
accepted at most once and not after it expires, and nothing but the code of the latest `create` for an identifier is
compared with what is submitted for it. -/
theorem otp_bound_to_identifier (events : List Event) (hclean : CleanRestarts events (load none)) (id : Bytes) :
    ((∀ event ∈ events, ¬ event.Creates id) → ∀ v ∈ verdicts id events (load none), v.2.isCompared = false) ∧
    ∀ before value now after, events = before ++ .create id (some value) now :: after →
      (∀ event ∈ after, ¬ event.Creates id) →
      Bounded (generateCode value) (now.seconds + ttlSeconds) 0
        (verdicts id after (run (before ++ [.create id (some value) now]) (load none))) := by
  refine ⟨fun hn => verdicts_missing .fresh hclean hn rfl, ?_⟩
  rintro before value now after rfl hn
  rw [List.append_cons, cleanRestarts_append] at hclean
  have hfind : (run (before ++ [.create id (some value) now]) (load none)).entries.find? id =
      some ⟨generateCode value, now.seconds, now.seconds + ttlSeconds, 0⟩ := by
    rw [run, List.foldl_append]
    exact (OrdMap.find?_insert ..).trans (if_pos rfl)
  exact verdicts_found (intact_run .fresh hclean.1) hclean.2 hn hfind (by dsimp only; omega)

/-- An identifier that spells the line of another one. -/
def forgedIdentifier : Bytes := ascii "victim 999999 0 9999999999 0"

def forgedRun : List Event :=
  [.create forgedIdentifier (some 5) ⟨1000, by decide⟩, .restart, .verify (ascii "victim") (ascii "999999") ⟨1001, by decide⟩]

/-- A code that `create` never made is accepted for an identifier that it was never called with. -/
theorem forged_code_accepted :
    (∀ event ∈ forgedRun, ¬ event.Creates (ascii "victim")) ∧
      (verdicts (ascii "victim") forgedRun (load none)).map (fun v => v.2.accepted) = [true] := by
  have hne : forgedIdentifier ≠ ascii "victim" := by decide +kernel
  refine ⟨?_, by decide +kernel⟩
  simp [forgedRun, Event.Creates, hne]

def plainRun : List Event :=
  [.create (ascii "a") (some 5) ⟨1000, by decide⟩, .restart, .verify (ascii "a") (ascii "000005") ⟨1001, by decide⟩]

theorem plainRun_bounded :
    Bounded (generateCode 5) 1300 0 (verdicts (ascii "a") plainRun.tail (run (plainRun.take 1) (load none))) := by
  have hclean : CleanRestarts plainRun (load none) := by
    refine ⟨nofun, fun _ => ?_, nofun, trivial⟩
    unfold Clean
    decide +kernel
  refine (otp_bound_to_identifier plainRun hclean (ascii "a")).2 [] 5 ⟨1000, by decide⟩ plainRun.tail rfl ?_
  simp [plainRun, Event.Creates]

end OtpStore

end Caesar
