import Mathlib.Data.List.TakeDrop
import TreeQuery.Json.Number
import TreeQuery.Json.Writer

/-! Quoted texts, in any spelling, and integers are read back as they were written, whatever follows
a text, and as long as no further part of a number follows an integer. -/

namespace TreeQuery

namespace Json

/-- The characters that have an escape of their own, after its mark. -/
def escapes : List (Char × Char) :=
  [('"', '"'), ('\\', '\\'), ('/', '/'), ('b', '\x08'), ('f', '\x0c'), ('n', '\n'), ('r', '\r'),
    ('t', '\t')]

/-- What may stand for a character between quotes: the character, an escape, or its number in four
hexadecimal digits. -/
inductive Spells : List Char → Char → Prop
  | plain {c : Char} (hcontrol : ¬c.toNat < 0x20) (hquote : c ≠ '"') (hescape : c ≠ '\\') :
    Spells [c] c
  | escaped {mark c : Char} (hmark : (mark, c) ∈ escapes) : Spells ['\\', mark] c
  | unit {w x y z char : Char} {a b c d : Nat} (hw : hexValue? w = some a)
      (hx : hexValue? x = some b)
      (hy : hexValue? y = some c) (hz : hexValue? z = some d)
      (hchar : char.toNat = ((a * 16 + b) * 16 + c) * 16 + d) :
    Spells ['\\', 'u', w, x, y, z] char

def Spelling.Valid (spell : Spelling) : Prop := ∀ c, Spells (spell c) c

theorem valid_escape : Spelling.Valid escape := by
  intro c
  rw [escape]
  split_ifs with h h h h h h h hcontrol
  iterate 7
    · subst h
      exact .escaped (by decide)
  · have hhex : ∀ n < 16, hexValue? (hexDigit n) = some n := by decide
    exact .unit rfl rfl (hhex (c.toNat / 16) (by omega)) (hhex (c.toNat % 16) (by omega)) (by omega)
  · exact .plain hcontrol ‹_› ‹_›

section Text

variable {paired : Bool} {c : Char} {rest chars after : List Char}

theorem textFrom_step {state next : TextState} (char : Option Char)
    (hopen : state ≠ .plain ∨ c ≠ '"') (hstep : textStep paired c rest state = .ok (char, next))
    (hrest : textFrom paired next rest = .ok (chars, after)) :
    textFrom paired state (c :: rest) = .ok (char.toList ++ chars, after) := by
  rw [textFrom]
  · rw [hstep]
    change (do
      let read ← textFrom paired next rest
      return (char.toList ++ read.1, read.2)) = _
    rw [hrest]
    rfl
  · rintro rfl hc
    exact hopen.elim (absurd rfl) (absurd hc)

theorem textFrom_unescaped (hquote : c ≠ '"') (hescape : c ≠ '\\') (hprint : ¬c.toNat < 0x20)
    (hrest : textFrom true .plain rest = .ok (chars, after)) :
    textFrom true .plain (c :: rest) = .ok (c :: chars, after) :=
  textFrom_step (some c) (.inr hquote)
    (by rw [textStep, if_neg hescape, if_neg hprint]) hrest

theorem textFrom_backslash (hrest : textFrom true .escape rest = .ok (chars, after)) :
    textFrom true .plain ('\\' :: rest) = .ok (chars, after) :=
  textFrom_step none (.inr (by decide)) rfl hrest

theorem textFrom_escaped {mark : Char} (hmark : mark ≠ 'u') (hchar : escaped? mark = some c)
    (hrest : textFrom true .plain rest = .ok (chars, after)) :
    textFrom true .plain ('\\' :: mark :: rest) = .ok (c :: chars, after) :=
  textFrom_backslash (textFrom_step (some c) (.inl nofun)
    (by rw [textStep, if_neg hmark, hchar]) hrest)

theorem textFrom_digit {missing value : Nat} (digit : Nat) (hmissing : 1 < missing)
    (hdigit : hexValue? c = some digit)
    (hrest : textFrom true (.unit none (missing - 1) (value * 16 + digit)) rest =
      .ok (chars, after)) :
    textFrom true (.unit none missing value) (c :: rest) = .ok (chars, after) :=
  textFrom_step none (.inl nofun)
    (by rw [textStep, hdigit]; exact if_neg (by omega)) hrest

theorem textFrom_unit {w x y z char : Char} {a b c d : Nat} (hw : hexValue? w = some a)
    (hx : hexValue? x = some b) (hy : hexValue? y = some c) (hz : hexValue? z = some d)
    (hchar : char.toNat = ((a * 16 + b) * 16 + c) * 16 + d)
    (hrest : textFrom true .plain rest = .ok (chars, after)) :
    textFrom true .plain ('\\' :: 'u' :: w :: x :: y :: z :: rest) =
      .ok (char :: chars, after) := by
  have hplain : isLeading char.toNat = false ∧ isTrailing char.toNat = false := by
    have hvalid : char.toNat < 0xd800 ∨ 0xdfff < char.toNat ∧ char.toNat < 0x110000 := char.valid
    simp only [isLeading, isTrailing, Bool.and_eq_false_iff, decide_eq_false_iff_not]
    omega
  have hlast : textStep true z rest (.unit none 1 ((a * 16 + b) * 16 + c)) =
      .ok (some char, .plain) := by
    simp [textStep, hz, ← hchar, unitStep, hplain]
  have hbytes : hasBytes 4 (w :: x :: y :: z :: rest) := by
    have := w.utf8Size_pos
    have := x.utf8Size_pos
    have := y.utf8Size_pos
    have := z.utf8Size_pos
    simp only [hasBytes, List.take_succ_cons, List.take_zero, List.foldl_cons, List.foldl_nil]
    exact decide_eq_true (by omega)
  refine textFrom_backslash (textFrom_step none (.inl nofun)
    (by rw [textStep, if_pos rfl, if_pos hbytes]) ?_)
  refine textFrom_digit a (by decide) hw (textFrom_digit b (by decide) hx ?_)
  refine textFrom_digit c (by decide) hy ?_
  rw [Nat.zero_mul, Nat.zero_add]
  exact textFrom_step (some char) (.inl nofun) hlast hrest

theorem textFrom_spells {cs : List Char} (h : Spells cs c)
    (hrest : textFrom true .plain rest = .ok (chars, after)) :
    textFrom true .plain (cs ++ rest) = .ok (c :: chars, after) := by
  cases h with
  | plain hcontrol hquote hescape => exact textFrom_unescaped hquote hescape hcontrol hrest
  | @escaped mark _ hmark =>
    have hall : ∀ e ∈ escapes, e.1 ≠ 'u' ∧ escaped? e.1 = some e.2 := by decide
    obtain ⟨hunit, hchar⟩ := hall _ hmark
    exact textFrom_escaped hunit hchar hrest
  | unit hw hx hy hz hchar => exact textFrom_unit hw hx hy hz hchar hrest

theorem text_quote {spell : Spelling} (hspell : spell.Valid) (s : String) (rest : List Char) :
    text true (s.toList.flatMap spell ++ '"' :: rest) = .ok (s, rest) := by
  have hchars (cs : List Char) :
      textFrom true .plain (cs.flatMap spell ++ '"' :: rest) = .ok (cs, rest) := by
    induction cs with
    | nil => rfl
    | cons c cs ih =>
      rw [List.flatMap_cons, List.append_assoc]
      exact textFrom_spells (hspell c) ih
  rw [text, hchars]
  exact congrArg (fun s => Except.ok (s, rest)) s.ofList_toList

end Text

section Integer

variable {n : Nat} {rest : List Char}

/-- The text after a number does not belong to it. -/
def EndsNumber (rest : List Char) : Prop :=
  ∀ c ∈ rest.head?, ¬c.isDigit ∧ c ≠ '.' ∧ c ≠ 'e' ∧ c ≠ 'E'

theorem EndsNumber.nil : EndsNumber [] := nofun

theorem EndsNumber.not_startsExponent (h : EndsNumber rest) : startsExponent rest = false := by
  cases rest with
  | nil => rfl
  | cons c rest =>
    obtain ⟨_, _, hlower, hupper⟩ := h c rfl
    simp [startsExponent, hlower, hupper]

theorem le_ofDigitChars (cs : List Char) (n : Nat) : n ≤ Nat.ofDigitChars 10 cs n := by
  induction cs generalizing n with
  | nil => simp
  | cons c cs ih =>
    rw [Nat.ofDigitChars_cons]
    exact Nat.le_trans (by omega) (ih _)

/-- No digit is dropped when the whole number fits. -/
theorem keepDigits_eq (cs : List Char) (n : Nat)
    (hfits : Nat.ofDigitChars 10 cs n ≤ maxSignificand) :
    keepDigits n cs = (Nat.ofDigitChars 10 cs n, []) := by
  induction cs generalizing n with
  | nil => simp [keepDigits]
  | cons c cs ih =>
    rw [Nat.ofDigitChars_cons] at hfits ⊢
    have hstep : n * 10 + digitValue c = 10 * n + (c.toNat - '0'.toNat) := by
      rw [digitValue, Nat.mul_comm]
    have hle := Nat.le_trans (le_ofDigitChars cs _) hfits
    rw [keepDigits, hstep, if_pos hle, ih _ hfits]

theorem span_digits (n : Nat) (hrest : EndsNumber rest) :
    (Nat.toDigits 10 n ++ rest).span Char.isDigit = (Nat.toDigits 10 n, rest) := by
  have hdigits : ∀ c ∈ Nat.toDigits 10 n, c.isDigit := fun c hc =>
    Nat.isDigit_of_mem_toDigits (by decide) (by decide) hc
  have hnone : rest.takeWhile Char.isDigit = [] ∧ rest.dropWhile Char.isDigit = rest := by
    cases rest with
    | nil => exact ⟨rfl, rfl⟩
    | cons c rest => simp [(hrest c rfl).1]
  rw [List.span_eq_takeWhile_dropWhile, List.takeWhile_append_of_pos hdigits,
    List.dropWhile_append_of_pos hdigits, hnone.1, hnone.2, List.append_nil]

theorem mem_intChars {c : Char} {i : Int} (h : c ∈ intChars i) : c = '-' ∨ c.isDigit := by
  have hdigit (hc : c ∈ Nat.toDigits 10 i.natAbs) : c.isDigit :=
    Nat.isDigit_of_mem_toDigits (by decide) (by decide) hc
  rw [intChars] at h
  split at h
  · exact (List.mem_cons.mp h).imp_right hdigit
  · exact .inr (hdigit h)

theorem intChars_eq_cons (i : Int) : ∃ c cs, intChars i = c :: cs ∧ (c = '-' ∨ c.isDigit) := by
  have hne : intChars i ≠ [] := by
    rw [intChars]
    split
    · exact List.cons_ne_nil _ _
    · exact Nat.toDigits_ne_nil
  obtain ⟨c, cs, h⟩ := List.exists_cons_of_ne_nil hne
  exact ⟨c, cs, h, mem_intChars (h ▸ List.mem_cons_self)⟩

/-- Only zero itself starts with a zero. -/
theorem toDigits_ne_zero_cons (n : Nat) (c : Char) (cs : List Char) :
    Nat.toDigits 10 n ≠ '0' :: c :: cs := by
  induction n using Nat.strongRecOn generalizing c cs with
  | ind n ih =>
    intro h
    rw [Nat.toDigits_eq_if (by decide)] at h
    split at h
    · simp at h
    next hlarge =>
      cases hleading : Nat.toDigits 10 (n / 10) with
      | nil => exact Nat.toDigits_ne_nil hleading
      | cons d ds =>
        rw [hleading, List.cons_append, List.cons.injEq] at h
        obtain ⟨rfl, hrest⟩ := h
        cases ds with
        | cons d ds => exact ih (n / 10) (by omega) d ds hleading
        | nil =>
          have hread : Nat.ofDigitChars 10 (Nat.toDigits 10 (n / 10)) 0 = n / 10 :=
            Nat.ofDigitChars_ten_toDigits
          rw [hleading] at hread
          have hzero : 0 = n / 10 := hread
          omega

theorem unsignedNumber_toDigits {negative : Bool} {v : Value} (hfits : n ≤ maxSignificand)
    (hvalue : integerValue negative n = some v) (hrest : EndsNumber rest) :
    unsignedNumber negative (Nat.toDigits 10 n ++ rest) = .ok (v, rest) := by
  have hkept : keepDigits 0 (Nat.toDigits 10 n) = (n, []) := by
    have hread : Nat.ofDigitChars 10 (Nat.toDigits 10 n) 0 = n := Nat.ofDigitChars_ten_toDigits
    rw [keepDigits_eq _ _ (Nat.le_trans (Nat.le_of_eq hread) hfits), hread]
  rw [unsignedNumber, span_digits n hrest]
  dsimp only
  split
  next h => exact absurd h Nat.toDigits_ne_nil
  next h => exact absurd h (toDigits_ne_zero_cons _ _ _)
  next =>
    rw [hkept]
    split
    next => exact absurd rfl (hrest '.' rfl).2.1
    next =>
      simp only [hrest.not_startsExponent, List.isEmpty_nil, hvalue]
      rfl

theorem number_intChars {i : Int} (hlow : -Int.pow 2 63 ≤ i) (hhigh : i < Int.pow 2 64)
    (hrest : EndsNumber rest) : number (intChars i ++ rest) = .ok (.integer i, rest) := by
  have hmax : maxSignificand = 18446744073709551615 := rfl
  have hleast : Int.pow 2 63 = 9223372036854775808 := rfl
  have hgreatest : Int.pow 2 64 = 18446744073709551616 := rfl
  rw [intChars]
  split
  next hnegative =>
    have hvalue : integerValue true i.natAbs = some (.integer i) := by
      have hrange : ¬(i.natAbs = 0 ∨ Nat.pow 2 63 < i.natAbs) := by
        have hpow : Nat.pow 2 63 = 9223372036854775808 := rfl
        omega
      rw [integerValue, if_pos rfl, if_neg hrange]
      congr
      omega
    exact unsignedNumber_toDigits (by omega) hvalue hrest
  next hpositive =>
    have hvalue : integerValue false i.natAbs = some (.integer i) := by
      rw [integerValue, if_neg Bool.false_ne_true, Int.natAbs_of_nonneg (by omega)]
    obtain ⟨c, cs, hdigits⟩ := List.exists_cons_of_ne_nil
      (Nat.toDigits_ne_nil (n := i.natAbs) (b := 10))
    have hmem : c ∈ Nat.toDigits 10 i.natAbs := hdigits ▸ List.mem_cons_self
    have hdigit : c.isDigit := Nat.isDigit_of_mem_toDigits (by decide) (by decide) hmem
    rw [number]
    · exact unsignedNumber_toDigits (by omega) hvalue hrest
    · intro _ hminus
      rw [hdigits] at hminus
      exact absurd ((List.cons.inj hminus).1 ▸ hdigit) (by decide)

end Integer

end Json

end TreeQuery
