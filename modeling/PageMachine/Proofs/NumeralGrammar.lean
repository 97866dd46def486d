import Mathlib.Data.List.Forall2
import Mathlib.Data.List.Induction
import Mathlib.Data.Nat.Digits.Defs
import PageMachine.Proofs.Text

/-!
# The grammar of numerals

Digits are read from the left against a largest number, and reading stops at the first fault. What
is accepted in the end can be said without the order of reading: a numeral is one or more digits,
its number is the sum of the digits times the powers of the base, and this number has to fit. That
no number on the way is too large follows, since further digits never make it smaller; leading zeros
add nothing. A signed numeral has at most one sign.

Which fault a text is refused with is left out.
-/

namespace PageMachine.Text

/-- Whether a character is the digit of a base for a number. Letters count in either case. -/
def IsDigit (base : Nat) (c : Char) (n : Nat) : Prop :=
  n < base ∧ "0123456789ABCDEF".toList[n]? = some c.toUpper

/-- Whether a text consists of digits that make up a number, the last of them counting ones. -/
def HasDigits (base : Nat) (text : List Char) (n : Nat) : Prop :=
  ∃ digits, List.Forall₂ (IsDigit base) text.reverse digits ∧ n = Nat.ofDigits base digits

/-- Whether a text is a numeral for a number: one or more digits that make it up. -/
def IsNumeral (base : Nat) (text : List Char) (n : Nat) : Prop :=
  text ≠ [] ∧ HasDigits base text n

/-- Whether a text is a decimal numeral for a number, with at most one sign in front. -/
inductive IsSignedNumeral : List Char → Int → Prop
  | plain {digits : List Char} {n : Nat} (h : IsNumeral 10 digits n) : IsSignedNumeral digits n
  | plus {digits : List Char} {n : Nat} (h : IsNumeral 10 digits n) :
      IsSignedNumeral ('+' :: digits) n
  | minus {digits : List Char} {n : Nat} (h : IsNumeral 10 digits n) :
      IsSignedNumeral ('-' :: digits) (-(n : Int))

/-- A character beyond ASCII has no other case. -/
theorem toUpper_of_le {c : Char} (h : 128 ≤ c.toNat) : c.toUpper = c := by
  have hbig : ¬(c.val ≥ 'a'.val ∧ c.val ≤ 'z'.val) := by
    rintro ⟨-, hle⟩
    have hsmall : c.toNat ≤ 122 := UInt32.le_iff_toNat_le.mp hle
    omega
  exact dif_neg hbig

/-- A character that has a value in some base is ASCII. -/
theorem lt_of_digitValue? {base n : Nat} {c : Char} (h : digitValue? base c = some n) :
    c.toNat < 128 := by
  simp only [digitValue?, Option.filter_eq_some_iff] at h
  split at h
  · omega
  · split at h
    · omega
    · split at h
      · omega
      · simp at h

/-- A digit of a numeral is ASCII. -/
theorem IsDigit.lt {base n : Nat} {c : Char} (h : IsDigit base c n) : c.toNat < 128 := by
  by_contra hbig
  have hmem : c ∈ "0123456789ABCDEF".toList := by
    rw [← toUpper_of_le (Nat.le_of_not_lt hbig)]
    exact List.mem_of_getElem? h.2
  have hall : "0123456789ABCDEF".toList.all (·.toNat < 128) = true := by decide
  exact hbig (of_decide_eq_true (List.all_eq_true.mp hall c hmem))

/-- The value of a character is the number for which it is the digit. -/
theorem digitValue?_eq_some_iff {base n : Nat} {c : Char} (hbase : base ≤ 16) :
    digitValue? base c = some n ↔ IsDigit base c n := by
  have hsmall : ∀ m : Fin 128, ∀ n : Fin 16,
      digitValue? 16 (Char.ofNat m) = some n.val ↔
        "0123456789ABCDEF".toList[n.val]? = some (Char.ofNat m).toUpper := by
    decide +kernel
  have hfilter : digitValue? base c = some n ↔ digitValue? 16 c = some n ∧ n < base := by
    simp only [digitValue?, Option.filter_eq_some_iff, decide_eq_true_eq, and_assoc]
    exact and_congr_right fun _ => (and_iff_right_of_imp fun h => h.trans_le hbase).symm
  rw [hfilter, IsDigit, and_comm]
  refine and_congr_right fun hn => ?_
  by_cases hc : c.toNat < 128
  · have hdigit := hsmall ⟨c.toNat, hc⟩ ⟨n, hn.trans_le hbase⟩
    rwa [Char.ofNat_toNat] at hdigit
  · exact iff_of_false (fun h => hc (lt_of_digitValue? h)) fun h => hc (IsDigit.lt ⟨hn, h⟩)

/-- One more digit behind others counts ones, and each of the others the base times as much. -/
theorem hasDigits_append_iff {base n : Nat} {front : List Char} {c : Char} :
    HasDigits base (front ++ [c]) n ↔
      ∃ high digit, HasDigits base front high ∧ IsDigit base c digit ∧ n = high * base + digit := by
  unfold HasDigits
  rw [List.reverse_append, List.reverse_singleton, List.singleton_append]
  constructor
  · rintro ⟨digits, hdigits, rfl⟩
    obtain ⟨digit, others, hdigit, hothers, rfl⟩ := List.forall₂_cons_left_iff.mp hdigits
    refine ⟨_, digit, ⟨others, hothers, rfl⟩, hdigit, ?_⟩
    rw [Nat.ofDigits_cons, Nat.mul_comm, Nat.add_comm]
  · rintro ⟨_, digit, ⟨others, hothers, rfl⟩, hdigit, rfl⟩
    refine ⟨digit :: others, .cons hdigit hothers, ?_⟩
    rw [Nat.ofDigits_cons, Nat.mul_comm, Nat.add_comm]

/-- One digit is read behind a number if the whole is not too large. -/
theorem readDigits_singleton_eq_ok_iff {base largest high n : Nat} (hbase : base ≤ 16) {c : Char} :
    readDigits base largest high [c] = .ok n ↔
      n ≤ largest ∧ ∃ digit, IsDigit base c digit ∧ n = high * base + digit := by
  simp only [← digitValue?_eq_some_iff hbase]
  rw [readDigits]
  cases digitValue? base c with
  | none => simp
  | some digit =>
    dsimp only
    split
    · next hlarge =>
      simp only [reduceCtorEq, false_iff, not_and, not_exists]
      intro hn other hother heq
      obtain rfl := Option.some.inj hother
      exact Nat.not_lt_of_le hn (heq ▸ hlarge)
    · next hfits =>
      constructor
      · intro h
        obtain rfl := Except.ok.inj h
        exact ⟨Nat.le_of_not_lt hfits, digit, rfl, rfl⟩
      · rintro ⟨-, other, hother, rfl⟩
        obtain rfl := Option.some.inj hother
        rfl

/-- Digits are read as the number that they make up, unless it is too large. -/
theorem readDigits_eq_ok_iff {base largest n : Nat} (hbase : base ≤ 16) {text : List Char} :
    readDigits base largest 0 text = .ok n ↔ n ≤ largest ∧ HasDigits base text n := by
  induction text using List.reverseRecOn generalizing n with
  | nil =>
    simp only [readDigits, HasDigits, List.reverse_nil, List.forall₂_nil_left_iff,
      exists_eq_left, Nat.ofDigits_nil, Except.ok.injEq]
    omega
  | append_singleton front c ih =>
    have hsplit : readDigits base largest 0 (front ++ [c]) = .ok n ↔ ∃ high,
        readDigits base largest 0 front = .ok high ∧ readDigits base largest high [c] = .ok n := by
      rw [readDigits_append]
      cases readDigits base largest 0 front <;> simp [Except.bind]
    simp only [hsplit, ih, readDigits_singleton_eq_ok_iff hbase, hasDigits_append_iff]
    constructor
    · rintro ⟨high, ⟨-, hfront⟩, hn, digit, hdigit, heq⟩
      exact ⟨hn, high, digit, hfront, hdigit, heq⟩
    · rintro ⟨hn, high, digit, hfront, hdigit, rfl⟩
      -- The number in front of a digit is no larger than the whole.
      have hle : high ≤ high * base := Nat.le_mul_of_pos_right high (Nat.zero_lt_of_lt hdigit.1)
      exact ⟨high, ⟨(hle.trans (Nat.le_add_right _ _)).trans hn, hfront⟩, hn, digit, hdigit, rfl⟩

/-- Every character of a text that consists of digits is one. -/
theorem HasDigits.exists_isDigit {base n : Nat} {text : List Char} {c : Char}
    (h : HasDigits base text n) (hc : c ∈ text) : ∃ digit, IsDigit base c digit := by
  obtain ⟨digits, hdigits, -⟩ := h
  obtain ⟨i, hi, rfl⟩ := List.mem_iff_getElem.mp (List.mem_reverse.mpr hc)
  exact ⟨_, hdigits.get hi (hdigits.length_eq ▸ hi)⟩

/-- A text that begins with a sign is no numeral. -/
theorem not_isNumeral_sign {base n : Nat} {c : Char} {rest : List Char} (hc : c = '+' ∨ c = '-') :
    ¬IsNumeral base (c :: rest) n := by
  rintro ⟨-, h⟩
  obtain ⟨digit, -, hdigit⟩ := h.exists_isDigit List.mem_cons_self
  have hmem := List.mem_of_getElem? hdigit
  rcases hc with rfl | rfl <;> exact absurd hmem (by decide)

/-- Behind a plus stands a numeral. -/
theorem isSignedNumeral_plus_iff {rest : List Char} {value : Int} :
    IsSignedNumeral ('+' :: rest) value ↔ ∃ n : Nat, IsNumeral 10 rest n ∧ value = n := by
  constructor
  · rintro (h | h)
    · exact absurd h (not_isNumeral_sign (.inl rfl))
    · exact ⟨_, h, rfl⟩
  · rintro ⟨n, h, rfl⟩
    exact .plus h

/-- Behind a minus stands a numeral, and its number is taken from zero. -/
theorem isSignedNumeral_minus_iff {rest : List Char} {value : Int} :
    IsSignedNumeral ('-' :: rest) value ↔ ∃ n : Nat, IsNumeral 10 rest n ∧ value = -(n : Int) := by
  constructor
  · rintro (h | _ | h)
    · exact absurd h (not_isNumeral_sign (.inr rfl))
    · exact ⟨_, h, rfl⟩
  · rintro ⟨n, h, rfl⟩
    exact .minus h

/-- A text without a sign is a numeral by itself. -/
theorem isSignedNumeral_iff {text : List Char} {value : Int} (hplus : ∀ rest, text ≠ '+' :: rest)
    (hminus : ∀ rest, text ≠ '-' :: rest) :
    IsSignedNumeral text value ↔ ∃ n : Nat, IsNumeral 10 text n ∧ value = n := by
  constructor
  · rintro (h | h | h)
    · exact ⟨_, h, rfl⟩
    · exact absurd rfl (hplus _)
    · exact absurd rfl (hminus _)
  · rintro ⟨n, h, rfl⟩
    exact .plain h

/-- A numeral is read as its number, or what is made of that, unless it is too large. -/
theorem map_readDigits_eq_ok_iff {largest : Nat} {text : List Char} (hne : text ≠ [])
    (f : Nat → Int) {value : Int} :
    (readDigits 10 largest 0 text).map f = .ok value ↔
      ∃ n, n ≤ largest ∧ IsNumeral 10 text n ∧ value = f n := by
  have hread : ∀ n, readDigits 10 largest 0 text = .ok n ↔ n ≤ largest ∧ IsNumeral 10 text n := by
    intro n
    rw [readDigits_eq_ok_iff (by decide), IsNumeral, and_iff_right hne]
  simp only [← and_assoc, ← hread]
  cases readDigits 10 largest 0 text with
  | error fault => simp [Except.map]
  | ok n => simp [Except.map, eq_comm]

/-- A text is read as a signed number of 32 bits exactly if it is a signed numeral for a number in
that range. -/
theorem readInt32_eq_ok_iff {text : List Char} {value : Int} :
    readInt32 text = .ok value ↔
      IsSignedNumeral text value ∧ -2147483648 ≤ value ∧ value ≤ 2147483647 := by
  have hempty : ∀ n, ¬IsNumeral 10 [] n := fun _ h => h.1 rfl
  have hlargest : maxInt32 = 2147483647 := rfl
  have hpositive : ∀ {digits : List Char}, digits ≠ [] →
      ((readDigits 10 maxInt32 0 digits).map Int.ofNat = .ok value ↔
        (∃ n : Nat, IsNumeral 10 digits n ∧ value = n) ∧
          -2147483648 ≤ value ∧ value ≤ 2147483647) := by
    intro digits hne
    rw [map_readDigits_eq_ok_iff hne]
    constructor
    · rintro ⟨n, hn, hnumeral, rfl⟩
      have hcast : Int.ofNat n = n := rfl
      exact ⟨⟨n, hnumeral, rfl⟩, by omega, by omega⟩
    · rintro ⟨⟨n, hnumeral, rfl⟩, -, hhigh⟩
      exact ⟨n, by omega, hnumeral, rfl⟩
  unfold readInt32
  split
  · simp [isSignedNumeral_iff, hempty]
  · simp [isSignedNumeral_plus_iff, hempty]
  · simp [isSignedNumeral_minus_iff, hempty]
  · next rest hne => rw [hpositive hne, isSignedNumeral_plus_iff]
  · next rest hne =>
    have hmap : ((readDigits 10 (maxInt32 + 1) 0 rest).map fun n => -(n : Int)) =
        (readDigits 10 (maxInt32 + 1) 0 rest).map fun n : Nat => -(n : Int) := by
      cases readDigits 10 (maxInt32 + 1) 0 rest <;> rfl
    rw [hmap, map_readDigits_eq_ok_iff hne, isSignedNumeral_minus_iff]
    constructor
    · rintro ⟨n, hn, hnumeral, rfl⟩
      exact ⟨⟨n, hnumeral, rfl⟩, by omega, by omega⟩
    · rintro ⟨⟨n, hnumeral, rfl⟩, hlow, -⟩
      exact ⟨n, by omega, hnumeral, rfl⟩
  · next hnil _ _ hplus hminus => rw [hpositive hnil, isSignedNumeral_iff hplus hminus]

end PageMachine.Text
