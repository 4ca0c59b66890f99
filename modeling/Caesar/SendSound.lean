import Caesar.Lib.Json
import Caesar.Send
import Caesar.AuthSound
import Caesar.PayoutSound

/-!
# The amount that is sent

The bytes before the first digit of a number are passed over, and `std::stoull`
reads the digits that come first. So what is sent for a number is its whole part,
without sign, fraction and exponent, and it is the number asked for if and only if
that is written as an unsigned integer.
-/

namespace Caesar

open Codec Text
open AuthState (toyVaultLib toyOwner)

/-! ## Reading a field -/

theorem fieldText_digits {digits rest : Bytes} (hne : digits ≠ []) (hd : ∀ b ∈ digits, isDigit b) :
    fieldText (digits ++ rest) = if (digits ++ rest).any (fun b => b = 44 || b = 125)
      then some ((digits ++ rest).takeWhile fun b => b != 44 && b != 125) else none := by
  cases digits with
  | nil => exact absurd rfl hne
  | cons b digits =>
    have hb : b ≠ 34 := ne_of_class (hd b List.mem_cons_self) rfl
    rw [List.cons_append, fieldText]
    · simp
    · intro more hmore
      exact hb (List.cons.inj hmore).1

theorem isBlank_skipped {b : UInt8} (h : Json.isBlank b) : (b != 34 && !isDigit b) = true :=
  Json.isBlank_rec (p := fun b => (b != 34 && !isDigit b) = true) rfl rfl rfl rfl h

theorem isBlank_kept {b : UInt8} (h : Json.isBlank b) : (b != 44 && b != 125) = true :=
  Json.isBlank_rec (p := fun b => (b != 44 && b != 125) = true) rfl rfl rfl rfl h

theorem isNumeric_kept {b : UInt8} (h : Json.Number.isNumeric b) : (b != 44 && b != 125) = true := by
  rw [Bool.and_eq_true, bne_iff_ne, bne_iff_ne]
  exact ⟨ne_of_class h rfl, ne_of_class h rfl⟩

def fieldAt (text : Bytes) : Bytes := (fieldText (text.dropWhile fun b => b != 34 && !isDigit b)).getD []

section
variable {key : String} {m : Json.Member key}

theorem getField_at {rest : Bytes} (h : m.ReachedAt rest) : getField key m.text = fieldAt rest := by
  obtain ⟨before, hfound⟩ := h
  rw [getField, hfound]
  rfl

theorem fieldAt_number {n : Json.Number} (hvalue : m.value = .number n) :
    fieldAt m.valueText = decimal n.whole ++ (n.tail ++ m.afterValue.1) := by
  let rest := (if m.last then (125 : UInt8) else 44) :: Json.text m.after
  have hskip : m.valueText.dropWhile (fun b => b != 34 && !isDigit b) =
      decimal n.whole ++ (n.tail ++ m.afterValue.1 ++ rest) := by
    have hsplit : m.valueText = (m.afterColon.1 ++ n.minus) ++ (decimal n.whole ++ (n.tail ++ m.afterValue.1 ++ rest)) := by
      simp [Json.Member.valueText, hvalue, Json.Scalar.text, Json.Number.text, rest]
    rw [hsplit]
    refine dropWhile_run (fun b hb => ?_) (fun b hb => ?_)
    · rcases List.mem_append.mp hb with hb | hb
      · exact isBlank_skipped (m.afterColon.2 b hb)
      · rw [Json.Number.isNumeric_minus hb]
        rfl
    · have hdigit : isDigit b := by
        cases hd : decimal n.whole with
        | nil => exact absurd hd (decimal_ne_nil _)
        | cons d ds =>
          rw [hd, List.cons_append, List.head?_cons, Option.mem_some_iff] at hb
          exact isDigit_decimal (hb ▸ hd ▸ List.mem_cons_self : b ∈ decimal n.whole)
      rw [hdigit, Bool.not_true, Bool.and_false]
  have hkept : ∀ b ∈ decimal n.whole ++ (n.tail ++ m.afterValue.1), (b != 44 && b != 125) = true := by
    intro b hb
    rcases List.mem_append.mp hb with hb | hb
    · exact isNumeric_kept (Json.Number.isNumeric_of_isDigit (isDigit_decimal hb))
    · rcases List.mem_append.mp hb with hb | hb
      · exact isNumeric_kept (Json.Number.isNumeric_tail hb)
      · exact isBlank_kept (m.afterValue.2 b hb)
  have hstop : ∀ b ∈ rest.head?, (b != 44 && b != 125) = false := by
    intro b hb
    rw [List.head?_cons, Option.mem_some_iff] at hb
    rw [← hb]
    cases m.last <;> rfl
  have hany : (decimal n.whole ++ (n.tail ++ m.afterValue.1 ++ rest)).any (fun b => b = 44 || b = 125) = true := by
    rw [List.any_eq_true]
    refine ⟨if m.last then 125 else 44, by simp [rest], ?_⟩
    cases m.last <;> rfl
  rw [fieldAt, hskip,
    fieldText_digits (decimal_ne_nil _) fun b hb => isDigit_decimal hb, if_pos hany, ← List.append_assoc,
    takeWhile_run hkept hstop, Option.getD_some]

theorem fieldAt_string {s : Json.Str} (hvalue : m.value = .string s) :
    fieldAt m.valueText = s.text.takeWhile (· != 34) := by
  have hskip : m.valueText.dropWhile (fun b => b != 34 && !isDigit b) =
      34 :: (s.text ++ 34 :: (m.afterValue.1 ++ (if m.last then 125 else 44) :: Json.text m.after)) := by
    rw [Json.Member.valueText, hvalue, Json.Scalar.text, List.cons_append, List.append_assoc]
    exact dropWhile_run (fun b hb => isBlank_skipped (m.afterColon.2 b hb)) (by simp)
  rw [fieldAt, hskip, fieldText, cut_fst, Option.getD_some]

end

/-! ## The amount -/

def amountRead : Json.Scalar → Option UInt64
  | .number n => if n.whole < 2 ^ 64 then some (.ofNat n.whole) else none
  | .string s => stoull (s.text.takeWhile (· != 34))

/-- What a number is taken for: its whole part, which a minus negates in 64 bits if the number stands in quotes. -/
def amountTaken : Json.Scalar → Json.Number → UInt64
  | .number _, n => .ofNat n.whole
  | .string _, n => if n.negative then -.ofNat n.whole else .ofNat n.whole

theorem scan_number (n : Json.Number) : ∃ rest, scan n.text = some (n.negative, n.whole, rest) := by
  rw [Json.Number.text, Json.Number.minus]
  cases n.negative with
  | false => exact ⟨n.tail, scan_decimal Json.Number.head_tail⟩
  | true => exact ⟨n.tail, scan_minus Json.Number.head_tail⟩

theorem amountRead_spelled {v : Json.Scalar} {n : Json.Number} (h : v.Spells n) :
    amountRead v = if n.whole < 2 ^ 64 then some (amountTaken v n) else none := by
  cases v with
  | number m =>
    obtain rfl : m = n := h
    rfl
  | string s =>
    have htext : s.text = n.text := h
    have hquote : ∀ b ∈ n.text, (b != 34) = true := fun b hb =>
      bne_iff_ne.mpr (ne_of_class (Json.Number.isNumeric_text hb) rfl)
    obtain ⟨rest, hscan⟩ := scan_number n
    rw [amountRead, htext, List.takeWhile_eq_self_iff.mpr hquote, stoull, hscan]
    rfl

theorem amountTaken_plain {v : Json.Scalar} {n : Json.Number} (h : n.Plain) : amountTaken v n = .ofNat n.whole := by
  cases v with
  | number m => rfl
  | string s => rw [amountTaken, h.positive, if_neg Bool.false_ne_true]

theorem stoull_fieldAt {key : String} (m : Json.Member key) : stoull (fieldAt m.valueText) = amountRead m.value := by
  cases hvalue : m.value with
  | number n =>
    have hend : ∀ b ∈ (n.tail ++ m.afterValue.1).head?, isDigit b = false := by
      intro b hb
      rw [List.head?_append] at hb
      rcases htail : n.tail.head? with _ | c
      · rw [htail, Option.none_or] at hb
        have hblank := m.afterValue.2 b (List.mem_of_mem_head? hb)
        exact Json.isBlank_rec (p := fun b => isDigit b = false) rfl rfl rfl rfl hblank
      · rw [htail, Option.some_or] at hb
        exact Json.Number.head_tail b (htail ▸ hb)
    rw [fieldAt_number hvalue, stoull, scan_decimal hend]
    rfl
  | string s => rw [fieldAt_string hvalue, amountRead]

theorem amountKey : Json.IsKey (ascii "amount") where
  ne_nil := by decide
  head b hb := by
    obtain rfl : 97 = b := Option.some.inj hb
    rfl
  quote := by decide
  backslash := by decide
  colon := by decide

/-! ## The transaction -/

theorem buildSend_ok {K : Crypto} {wallet : PoolWallet} {amount : UInt64} {recipient : Bytes} {utxos : List WalletUtxo}
    {tx : Transaction} (h : buildSend K wallet amount recipient utxos = .ok tx) :
    tx.outputs.head? = some ⟨amount, recipient⟩ := by
  obtain ⟨-, h⟩ := ite_error_ok.mp h
  obtain ⟨back, -, h⟩ := bind_ok.mp h
  obtain ⟨publicKey, -, h⟩ := bind_ok.mp h
  rw [(signInputs_ok h).2]
  rfl

namespace SendCall

variable {K : Crypto} {V : VaultLib} {call : SendCall K V}

theorem amount_ok {a : UInt64} (h : call.amount = .ok a) : stoull (getField "amount" call.body) = some a ∧ a ≠ 0 := by
  rw [amount] at h
  obtain ⟨-, h⟩ := ite_error_ok.mp h
  cases hread : stoull (getField "amount" call.body) with
  | none =>
    rw [hread] at h
    cases h
  | some b =>
    rw [hread] at h
    obtain ⟨hpos, h⟩ := ite_error_ok.mp h
    rw [← Except.ok.inj h]
    exact ⟨rfl, hpos⟩

theorem build_ok {tx : Transaction} (h : call.build = .ok tx) : ∃ output, tx.outputs.head? = some output ∧
    stoull (getField "amount" call.body) = some output.amount ∧ output.amount ≠ 0 := by
  rw [build] at h
  cases hwallet : call.wallet with
  | none =>
    rw [hwallet] at h
    cases h
  | some wallet =>
    rw [hwallet] at h
    obtain ⟨amount, hamount, h⟩ := bind_ok.mp h
    obtain ⟨-, h⟩ := ite_error_ok.mp h
    obtain ⟨utxos, -, h⟩ := bind_ok.mp h
    exact ⟨_, buildSend_ok h, amount_ok hamount⟩

def Refused (call : SendCall K V) : Prop := ∃ status error, call.apiSend = (.failed status error, call.node)

theorem refused_of_amount (h : ∀ a, stoull (getField "amount" call.body) = some a → a = 0) : call.Refused := by
  rw [Refused, apiSend]
  split
  · exact ⟨401, "unauthorized", rfl⟩
  · split
    · exact ⟨403, "csrf", rfl⟩
    · cases hbuild : call.build with
      | error e => exact ⟨500, e.what, rfl⟩
      | ok tx =>
        obtain ⟨output, -, hread, hpos⟩ := build_ok hbuild
        exact absurd (h _ hread) hpos

end SendCall

/-! ## The amount sent is the amount asked for -/

theorem amountTaken_zero {v : Json.Scalar} {n : Json.Number} (h : n.whole = 0) : amountTaken v n = 0 := by
  cases v with
  | number m => simp [amountTaken, h]
  | string s => simp [amountTaken, h]

theorem exact_iff_read {v : Json.Scalar} {a : UInt64} : v.Exact a.toNat ↔ v.Plain ∧ amountRead v = some a := by
  constructor
  · rintro ⟨n, hn, hplain, hvalue⟩
    rw [hplain.value_eq, Nat.cast_inj] at hvalue
    refine ⟨⟨n, hn, hplain⟩, ?_⟩
    rw [amountRead_spelled hn, amountTaken_plain hplain, hvalue, if_pos a.toNat_lt, UInt64.ofNat_toNat]
  · rintro ⟨⟨n, hn, hplain⟩, hread⟩
    rw [amountRead_spelled hn, amountTaken_plain hplain] at hread
    by_cases hfits : n.whole < 2 ^ 64
    · rw [if_pos hfits, Option.some.injEq] at hread
      refine ⟨n, hn, hplain, ?_⟩
      rw [hplain.value_eq, ← hread, UInt64.toNat_ofNat_of_lt' hfits]
    · rw [if_neg hfits] at hread
      cases hread

/-- For every body with a member `amount`. The colon that is reached is that of the member or an earlier one. In the first
case a transaction pays the whole part of the number; so it pays what was asked for exactly when that is written as an
unsigned integer, and zero, numbers that do not fit and strings without a number in front are refused. In the second case it
pays what stands after the earlier colon. -/
theorem sent_amount_exact_iff {K : Crypto} {V : VaultLib} (call : SendCall K V) (m : Json.Member "amount")
    (hbody : call.body = m.text) :
    (m.Reached ∨ ∃ other, m.ReachedAt (other ++ 58 :: m.valueText)) ∧
    (∀ tx, call.build = .ok tx → ∃ output, tx.outputs.head? = some output ∧
      (m.Reached → ∀ n, m.value.Spells n → output.amount = amountTaken m.value n) ∧
      (∀ other, m.ReachedAt (other ++ 58 :: m.valueText) →
        stoull (fieldAt (other ++ 58 :: m.valueText)) = some output.amount) ∧
      (m.value.Exact output.amount.toNat ↔ m.value.Plain ∧ (m.Reached ∨ ∃ other,
        m.ReachedAt (other ++ 58 :: m.valueText) ∧ stoull (fieldAt (other ++ 58 :: m.valueText)) = amountRead m.value))) ∧
    (m.Reached → (∀ n, m.value.Spells n → n.whole = 0 ∨ 2 ^ 64 ≤ n.whole → call.Refused) ∧
      ∀ s, m.value = .string s → scan (s.text.takeWhile (· != 34)) = none → call.Refused) := by
  have hat : ∀ {rest}, m.ReachedAt rest → stoull (getField "amount" call.body) = stoull (fieldAt rest) := by
    intro rest h
    rw [hbody, getField_at h]
  have hown : m.Reached → stoull (getField "amount" call.body) = amountRead m.value := by
    intro h
    rw [hat h, stoull_fieldAt]
  refine ⟨m.reached_or, fun tx hbuild => ?_, fun h => ⟨fun n hn hwhole => ?_, fun s hs hscan => ?_⟩⟩
  · obtain ⟨output, hhead, hamount, -⟩ := SendCall.build_ok hbuild
    refine ⟨output, hhead, fun h n hn => ?_, fun other h => by rw [← hat h, hamount], ?_⟩
    · rw [hown h, amountRead_spelled hn] at hamount
      by_cases hfits : n.whole < 2 ^ 64
      · rw [if_pos hfits, Option.some.injEq] at hamount
        exact hamount.symm
      · rw [if_neg hfits] at hamount
        cases hamount
    · rw [exact_iff_read, ← hamount]
      refine and_congr_right fun _ => ⟨fun hread => ?_, ?_⟩
      · refine m.reached_or.imp_right fun ⟨other, h⟩ => ⟨other, h, ?_⟩
        rw [← hat h, hread]
      · rintro (h | ⟨other, h, hread⟩)
        · exact (hown h).symm
        · rw [← hread, hat h]
  · refine SendCall.refused_of_amount fun a ha => ?_
    rw [hown h, amountRead_spelled hn] at ha
    rcases hwhole with hzero | hbig
    · rw [if_pos (by omega), amountTaken_zero hzero, Option.some.injEq] at ha
      exact ha.symm
    · rw [if_neg (Nat.not_lt.mpr hbig)] at ha
      cases ha
  · refine SendCall.refused_of_amount fun a ha => ?_
    rw [hown h, hs, amountRead, stoull, hscan] at ha
    cases ha

def toyText (bs : Bytes) : Json.Str :=
  ⟨bs.filterMap fun b => if h : 32 ≤ b ∧ b ≠ 34 ∧ b ≠ 92 then some (.plain b h) else none⟩

def toyMember (earlier : List Json.Lexeme) (amount : Json.Scalar) : Json.Member "amount" where
  before := [.mark 123 (by decide), .string (toyText (ascii "recipient")), .mark 58 (by decide),
    .string (toyText toyAddress), .mark 44 (by decide)] ++ earlier
  beforeColon := ⟨[], by simp⟩
  afterColon := ⟨[32], by simp; rfl⟩
  value := amount
  afterValue := ⟨[], by simp⟩
  last := true
  after := []

theorem toyMember_keyFirst (amount : Json.Scalar) : (toyMember [] amount).KeyFirst := by
  intro s hs
  simp only [toyMember, List.append_nil, List.mem_cons, List.not_mem_nil, or_false, reduceCtorEq, false_or,
    Json.Lexeme.string.injEq] at hs
  rcases hs with rfl | rfl
  · decide +kernel
  · decide +kernel

def toySend (earlier : List Json.Lexeme) (amount : Json.Scalar) : SendCall toyCrypto toyVaultLib where
  node := toyNode [toyGenesis, toyFirst]
  connections := []
  walk := toyWalk
  coins := toyCoins
  auth := toyOwner
  wallet := some ⟨.ok toyKey, fun _ => .ok [9]⟩
  cookie := ascii "caesar_session=secret"
  origin := []
  body := (toyMember earlier amount).text

/-- The member `"memo":"amount"`, which is found first, and after which the colon of the amount comes. -/
def toyEcho : List Json.Lexeme :=
  [.string (toyText (ascii "memo")), .mark 58 (by decide), .string (toyText (ascii "amount")), .mark 44 (by decide)]

theorem toyEcho_reached : (toyMember toyEcho (.number ⟨false, 5, none, none⟩)).Reached :=
  ⟨quoted "amount" ++ 44 :: quoted "amount", by decide +kernel⟩

theorem sent_amount_toy :
    (∃ tx output, (toySend toyEcho (.number ⟨false, 5, none, none⟩)).build = .ok tx ∧ tx.outputs.head? = some output ∧
      (Json.Scalar.number ⟨false, 5, none, none⟩).Exact output.amount.toNat) ∧
    (toySend [] (.string (toyText (ascii "18446744073709551616")))).Refused := by
  have hbuild : ((toySend toyEcho (.number ⟨false, 5, none, none⟩)).build.map fun _ => ()) = .ok () := by decide +kernel
  obtain ⟨tx, htx, -⟩ := exists_of_map_ok hbuild
  obtain ⟨output, hhead, -, -, hexact⟩ := (sent_amount_exact_iff (toySend toyEcho (.number ⟨false, 5, none, none⟩)) _
    rfl).2.1 tx htx
  refine ⟨⟨tx, output, htx, hhead, hexact.mpr ⟨⟨_, rfl, rfl, rfl, rfl⟩, Or.inl toyEcho_reached⟩⟩, ?_⟩
  have hspelled : (toyText (ascii "18446744073709551616")).text = (⟨false, 2 ^ 64, none, none⟩ : Json.Number).text := by
    decide +kernel
  exact ((sent_amount_exact_iff (toySend [] (.string (toyText (ascii "18446744073709551616")))) _ rfl).2.2
    ((toyMember_keyFirst _).reached amountKey)).1 ⟨false, 2 ^ 64, none, none⟩ hspelled (Or.inr (Nat.le_refl _))

def toyThousand : Json.Exponent := ⟨false, none, [51], List.forall_mem_singleton.mpr rfl, List.cons_ne_nil 51 []⟩

/-- The members `"memo":"amount","id":7`. -/
def toyMemo : List Json.Lexeme :=
  [.string (toyText (ascii "memo")), .mark 58 (by decide), .string (toyText (ascii "amount")), .mark 44 (by decide),
    .string (toyText (ascii "id")), .mark 58 (by decide), .number ⟨false, 7, none, none⟩, .mark 44 (by decide)]

/-- `-5` and `1e3` are sent as 5 and 1, and after the memo 5 is sent as 7. -/
theorem misread_amounts_sent :
    ((⟨true, 5, none, none⟩ : Json.Number).value = -5 ∧
      (∃ tx, (toySend [] (.number ⟨true, 5, none, none⟩)).build = .ok tx ∧ tx.outputs.head? = some ⟨5, toyAddress⟩) ∧
      ∃ txid, (toySend [] (.number ⟨true, 5, none, none⟩)).apiSend.1 = .sent txid) ∧
    ((⟨false, 1, none, some toyThousand⟩ : Json.Number).value = 1000 ∧
      ∃ tx, (toySend [] (.number ⟨false, 1, none, some toyThousand⟩)).build = .ok tx ∧
        tx.outputs.head? = some ⟨1, toyAddress⟩) ∧
    ∃ tx, (toySend toyMemo (.number ⟨false, 5, none, none⟩)).build = .ok tx ∧ tx.outputs.head? = some ⟨7, toyAddress⟩ := by
  have hminus : ((toySend [] (.number ⟨true, 5, none, none⟩)).build.map fun tx => tx.outputs.head?) =
      .ok (some ⟨5, toyAddress⟩) := by decide +kernel
  have hscaled : ((toySend [] (.number ⟨false, 1, none, some toyThousand⟩)).build.map fun tx => tx.outputs.head?) =
      .ok (some ⟨1, toyAddress⟩) := by decide +kernel
  have hmemo : ((toySend toyMemo (.number ⟨false, 5, none, none⟩)).build.map fun tx => tx.outputs.head?) =
      .ok (some ⟨7, toyAddress⟩) := by decide +kernel
  refine ⟨⟨?_, exists_of_map_ok hminus, ?_⟩, ⟨?_, exists_of_map_ok hscaled⟩, exists_of_map_ok hmemo⟩
  · simp [Json.Number.value]
  · cases hreply : (toySend [] (.number ⟨true, 5, none, none⟩)).apiSend.1 with
    | sent txid => exact ⟨txid, rfl⟩
    | failed status error =>
      have hsent : (toySend [] (.number ⟨true, 5, none, none⟩)).apiSend.1.isSent = true := by decide +kernel
      rw [hreply] at hsent
      cases hsent
  · have hscale : toyThousand.value = 3 := rfl
    norm_num [Json.Number.value, hscale]

end Caesar
