import Midend.Proofs.Source.Grammar

/-!
# What the scanner delivers

Every token that is delivered is a word, an integer or a mark in its own right: a word is spelled by
letters and digits, and an integer has no digit that is too large and no misplaced underscore.  So the
only thing that can be wrong with an integer later is that its value does not fit.

## Main definitions

* `IsWordText`, `IsInteger`: the spellings of words and of integers.
* `TokenStream.Proper`: all tokens are spelled as their kind demands.

## Main results

* `proper_ofSymbols`: the tokens of every text are proper.
* `readSigned_eq_ok_iff`: an integer token is read just if its value fits.
-/

namespace Midend.Source

open Midend.Text (Symbol)

/-! ### Spellings -/

/-- The spelling of a word. -/
inductive IsWordText : List Char → Prop where
  | mk {c : Char} {cs : List Char} : startsWord c = true → cs.all continuesWord = true →
      IsWordText (c :: cs)

/-- The spelling of an integer: with a mark for its radix, with a bare `0` in front, or without
either. -/
inductive IsInteger : List Char → Prop where
  | marked {m : Char} {radix : Radix} {digits : List Char} :
      radixMark (some m) = (radix, [m]) → digits.all radix.continues = true →
      integerError? radix digits ('0' :: m :: digits) = none → IsInteger ('0' :: m :: digits)
  | octal {digits : List Char} : radixMark digits.head? = (.octal, []) →
      digits.all Radix.octal.continues = true →
      integerError? .octal ('0' :: digits) ('0' :: digits) = none → IsInteger ('0' :: digits)
  | decimal {d : Char} {digits : List Char} : Text.isAsciiDigit d = true → d ≠ '0' →
      digits.all Radix.decimal.continues = true →
      integerError? .decimal (d :: digits) (d :: digits) = none → IsInteger (d :: digits)

/-- The token is spelled as its kind demands. -/
def Token.Proper (t : Token) : Prop :=
  match t.kind with
  | .word => IsWordText t.text.toList
  | .int => IsInteger t.text.toList
  | .mark c => t.text = String.ofList [c]
  | .eof => False

theorem Token.Proper.text_ne {t : Token} (h : t.Proper) (hname : t.IsName) : t.text ≠ "" := by
  intro htext
  unfold Token.Proper at h
  rcases hname with hkind | hkind
  · rw [hkind, htext] at h
    cases h
  · rw [hkind, htext] at h
    cases h

/-- All tokens are spelled as their kinds demand. -/
def TokenStream.Proper : TokenStream → Prop
  | .cons t rest => t.Proper ∧ rest.Proper
  | _ => True

/-! ### Runs of characters -/

theorem all_span (q : Char → Bool) (pos : Position) (l : List Symbol) :
    (span q pos l).1.all q = true := by
  fun_induction span q pos l with
  | case1 pos c rest hq cs after hspan ih =>
    rw [hspan] at ih
    simp [hq, ih]
  | case2 => rfl
  | case3 => rfl

/-- A run starts with the next character, if it is not empty. -/
theorem head?_span (q : Char → Bool) (c : Cursor) :
    (c.span q).1.head? = none ∨ (c.span q).1.head? = c.peek? := by
  obtain ⟨l, pos⟩ := c
  cases l with
  | nil => exact .inl rfl
  | cons s l =>
    cases s with
    | invalid => exact .inl rfl
    | char ch =>
      by_cases hq : q ch = true
      · right
        simp [Cursor.span, Source.span, Cursor.peek?, hq]
      · left
        simp [Cursor.span, Source.span, hq]

theorem span_of_peek? {q : Char → Bool} {c : Cursor} {ch : Char} (h : c.peek? = some ch)
    (hq : q ch = true) : (c.span q).1 = ch :: (c.advance.span q).1 := by
  obtain ⟨l, pos⟩ := c
  unfold Cursor.peek? at h
  split at h
  · next hl =>
    cases h
    change l = _ at hl
    subst hl
    simp [Cursor.span, Source.span, Cursor.advance, hq]
  · cases h

/-! ### Integers -/

/-- A radix is marked by one character, or it is octal. -/
theorem radixMark_eq (c? : Option Char) :
    radixMark c? = (.octal, []) ∨ ∃ m radix, c? = some m ∧ radixMark (some m) = (radix, [m]) := by
  unfold radixMark
  split
  all_goals first
    | exact .inl rfl
    | exact .inr ⟨_, _, rfl, rfl⟩

theorem isInteger_readInteger {d : Char} {c : Cursor} (hd : Text.isAsciiDigit d = true)
    (h : (readInteger d c).2.1 = none) : IsInteger (readInteger d c).1 := by
  unfold readInteger at h ⊢
  split at h
  · next hzero =>
    rw [if_pos hzero]
    rcases radixMark_eq c.peek? with hmark | ⟨m, radix, hpeek, hmark⟩
    · rw [hmark] at h ⊢
      have hhead : radixMark (c.span Radix.octal.continues).1.head? = (.octal, []) := by
        rcases head?_span Radix.octal.continues c with hnone | hsome
        · rw [hnone]
          rfl
        · rw [hsome, hmark]
      exact .octal hhead (all_span _ _ _) h
    · rw [hpeek, hmark] at h ⊢
      exact .marked hmark (all_span _ _ _) h
  · next hzero =>
    rw [if_neg hzero]
    exact .decimal hd hzero (all_span _ _ _) h

/-! ### Streams -/

theorem proper_deliver {token : Token} {error? : Option LexError} {after : Cursor}
    {rest : TokenStream} (ht : error? = none → token.Proper) (hrest : rest.Proper) :
    (deliver token error? after rest).Proper := by
  unfold deliver
  split
  · exact trivial
  · cases error? with
    | some e => exact trivial
    | none => exact ⟨ht rfl, hrest⟩

theorem proper_tokensFrom (fuel : Nat) (c : Cursor) : (tokensFrom fuel c).Proper := by
  induction fuel generalizing c with
  | zero => exact trivial
  | succ fuel ih =>
    unfold tokensFrom
    extract_lets c
    split
    · exact trivial
    · split
      · exact trivial
      · next ch hpeek =>
        split
        · next hstart =>
          refine proper_deliver (fun _ => ?_) (ih _)
          have hcont : continuesWord ch = true := by simp [continuesWord, hstart]
          change IsWordText (String.ofList (c.span continuesWord).1).toList
          rw [String.toList_ofList, span_of_peek? hpeek hcont]
          exact .mk hstart (all_span _ _ _)
        · split
          · next hdigit =>
            refine proper_deliver (fun herror => ?_) (ih _)
            change IsInteger (String.ofList _).toList
            rw [String.toList_ofList]
            exact isInteger_readInteger hdigit herror
          · split
            · split
              · exact trivial
              · exact ih _
            · split
              · split
                split
                · exact trivial
                · split
                  · exact ih _
                  · exact trivial
              · exact proper_deliver (fun _ => rfl) (ih _)

/-- **The tokens of every text are proper.** -/
theorem proper_ofSymbols (symbols : List Symbol) : (TokenStream.ofSymbols symbols).Proper :=
  proper_tokensFrom _ _

/-! ### The value of an integer -/

theorem integerError?_eq_none_iff {radix : Radix} {digits text : List Char} :
    integerError? radix digits text = none ↔ (∃ c ∈ digits, c ≠ '_') ∧
      (∀ c ∈ digits, radix.isTooLarge c = false) ∧
      (text.contains '_' && !Text.separatorsOk text) = false := by
  unfold integerError?
  by_cases hall : digits.all (· = '_') = true
  · simp only [hall, if_true, reduceCtorEq, false_iff]
    rintro ⟨⟨c, hc, hne⟩, -⟩
    exact hne (by simpa using List.all_eq_true.mp hall c hc)
  · have hsome : ∃ c ∈ digits, c ≠ '_' := by simpa using hall
    simp only [hall, Bool.false_eq_true, if_false, hsome, true_and]
    cases hfind : digits.find? radix.isTooLarge with
    | some d =>
      simp only [reduceCtorEq, false_iff]
      rintro ⟨hsmall, -⟩
      have hlarge := List.find?_some hfind
      rw [hsmall d (List.mem_of_find?_eq_some hfind)] at hlarge
      cases hlarge
    | none =>
      have hsmall : ∀ c ∈ digits, radix.isTooLarge c = false := by
        simpa using List.find?_eq_none.mp hfind
      rw [and_iff_right hsmall]
      simp

/-- The number of digits of a radix. -/
def Radix.base : Radix → Nat
  | .decimal => 10
  | .hexadecimal => 16
  | .octal => 8
  | .binary => 2

theorem Radix.base_pos (r : Radix) : 0 < r.base := by cases r <;> decide

theorem le_iff_toNat_le {c d : Char} : c ≤ d ↔ c.toNat ≤ d.toNat := Iff.rfl

/-- What may continue an integer and is neither an underscore nor too large is a digit. -/
theorem digitValue?_of_continues {radix : Radix} {c : Char} (hc : radix.continues c = true)
    (hsmall : radix.isTooLarge c = false) (hne : c ≠ '_') :
    ∃ d, Text.digitValue? c = some d ∧ d < radix.base := by
  unfold Text.digitValue?
  cases radix <;>
    simp only [Radix.continues, Radix.isTooLarge, Text.isHexDigit, Text.isAsciiDigit, hne,
      le_iff_toNat_le, Bool.or_eq_true, Bool.and_eq_true, Bool.and_eq_false_iff,
      decide_eq_true_eq, decide_eq_false_iff_not, if_true, if_false, reduceCtorEq, false_or,
      Char.reduceToNat, Radix.base] at hc hsmall ⊢
  case decimal => exact ⟨_, if_pos hc, by omega⟩
  case octal => exact ⟨_, if_pos hc, by omega⟩
  case binary => exact ⟨_, if_pos hc, by omega⟩
  case hexadecimal =>
    rcases hc with (hc | hc) | hc
    · exact ⟨_, if_pos hc, by omega⟩
    · exact ⟨_, by rw [if_neg (by omega), if_pos (by omega)], by omega⟩
    · exact ⟨_, by rw [if_neg (by omega), if_neg (by omega), if_pos (by omega)], by omega⟩

theorem digitOf_eq {c : Char} {d : Nat} (h : Text.digitValue? c = some d) :
    Text.digitOf c = d := by
  simp [Text.digitOf, h]

/-- Every character of a numeral of this radix is a digit, the underscores apart. -/
def AllDigits (base : Nat) (cs : List Char) : Prop :=
  ∀ c ∈ cs, c ≠ '_' → ∃ d, Text.digitValue? c = some d ∧ d < base

theorem allDigits_of_continues (radix : Radix) {digits : List Char}
    (hcont : digits.all radix.continues = true)
    (hsmall : ∀ c ∈ digits, radix.isTooLarge c = false) : AllDigits radix.base digits :=
  fun c hc hne => digitValue?_of_continues (List.all_eq_true.mp hcont c hc) (hsmall c hc) hne

theorem splitRadix_marked {m c : Char} {radix : Radix} {cs : List Char}
    (h : radixMark (some m) = (radix, [m])) :
    Text.splitRadix ('0' :: m :: c :: cs) = (radix.base, c :: cs) := by
  unfold radixMark at h
  split at h <;> cases h <;> simp_all [Text.splitRadix, Radix.base]

theorem splitRadix_octal {digits : List Char} (h : radixMark digits.head? = (.octal, [])) :
    Text.splitRadix ('0' :: digits) = (8, digits) := by
  match digits with
  | [] => rfl
  | [_] => rfl
  | m :: c :: cs =>
    have hm : m ≠ 'b' ∧ m ≠ 'B' ∧ m ≠ 'o' ∧ m ≠ 'O' ∧ m ≠ 'x' ∧ m ≠ 'X' := by
      refine ⟨?_, ?_, ?_, ?_, ?_, ?_⟩ <;>
      · rintro rfl
        simp [radixMark] at h
    simp [Text.splitRadix, hm]

theorem splitRadix_decimal {d : Char} {digits : List Char} (h : d ≠ '0') :
    Text.splitRadix (d :: digits) = (10, d :: digits) := by
  unfold Text.splitRadix
  split <;> simp_all

theorem IsInteger.allDigits {cs : List Char} (h : IsInteger cs) :
    0 < (Text.splitRadix cs).1 ∧ AllDigits (Text.splitRadix cs).1 (Text.splitRadix cs).2 := by
  cases h with
  | @marked m radix digits hmark hcont herror =>
    obtain ⟨⟨c, hc, -⟩, hsmall, -⟩ := integerError?_eq_none_iff.mp herror
    cases digits with
    | nil => cases hc
    | cons c cs =>
      rw [splitRadix_marked hmark]
      exact ⟨radix.base_pos, allDigits_of_continues radix hcont hsmall⟩
  | octal hmark hcont herror =>
    obtain ⟨-, hsmall, -⟩ := integerError?_eq_none_iff.mp herror
    rw [splitRadix_octal hmark]
    exact ⟨Radix.octal.base_pos, allDigits_of_continues .octal hcont fun c hc =>
      hsmall c (List.mem_cons_of_mem _ hc)⟩
  | @decimal d digits hd hne hcont herror =>
    obtain ⟨-, hsmall, -⟩ := integerError?_eq_none_iff.mp herror
    rw [splitRadix_decimal hne]
    have hall : (d :: digits).all Radix.decimal.continues = true := by
      rw [List.all_cons, hcont, Bool.and_true]
      simp [Radix.continues, hd]
    exact ⟨Radix.decimal.base_pos, allDigits_of_continues .decimal hall hsmall⟩

theorem IsInteger.exists_eq {cs : List Char} (h : IsInteger cs) :
    ∃ d ds, cs = d :: ds ∧ Text.isAsciiDigit d = true := by
  cases h with
  | marked => exact ⟨_, _, rfl, by decide⟩
  | octal => exact ⟨_, _, rfl, by decide⟩
  | decimal hd => exact ⟨_, _, rfl, hd⟩

theorem IsInteger.separators {cs : List Char} (h : IsInteger cs) :
    (cs.contains '_' && !Text.separatorsOk cs) = false := by
  cases h with
  | marked _ _ herror => exact (integerError?_eq_none_iff.mp herror).2.2
  | octal _ _ herror => exact (integerError?_eq_none_iff.mp herror).2.2
  | decimal _ _ _ herror => exact (integerError?_eq_none_iff.mp herror).2.2

/-- A value never falls as digits are added. -/
theorem le_foldl_digits {base : Nat} (hbase : 0 < base) (cs : List Char) (acc : Nat) :
    acc ≤ cs.foldl (fun n c => n * base + Text.digitOf c) acc := by
  induction cs generalizing acc with
  | nil => exact Nat.le_refl acc
  | cons c cs ih =>
    calc acc ≤ acc * base := Nat.le_mul_of_pos_right acc hbase
      _ ≤ acc * base + Text.digitOf c := Nat.le_add_right _ _
      _ ≤ _ := ih _

theorem readDigits_eq {base limit acc : Nat} {cs : List Char} (hbase : 0 < base)
    (hcs : AllDigits base cs) (hacc : acc < limit) :
    Text.readDigits base limit true acc cs =
      let n := (cs.filter (· ≠ '_')).foldl (fun n c => n * base + Text.digitOf c) acc
      if n < limit then .ok n else .error .outOfRange := by
  induction cs generalizing acc with
  | nil => simp [Text.readDigits, hacc]
  | cons c cs ih =>
    have hrest : AllDigits base cs := fun x hx => hcs x (List.mem_cons_of_mem c hx)
    by_cases hc : c = '_'
    · simp only [Text.readDigits, hc, decide_true, Bool.and_self, if_true]
      rw [ih hrest hacc]
      simp
    · obtain ⟨d, hd, hlt⟩ := hcs c List.mem_cons_self hc
      have hfilter : (c :: cs).filter (· ≠ '_') = c :: cs.filter (· ≠ '_') := by simp [hc]
      simp only [Text.readDigits, hc, decide_false, Bool.and_false, Bool.false_eq_true, if_false,
        hd, Nat.not_le.mpr hlt, hfilter, List.foldl_cons, digitOf_eq hd]
      by_cases hlimit : limit ≤ acc * base + d
      · have hle := le_foldl_digits hbase (cs.filter (· ≠ '_')) (acc * base + d)
        rw [if_pos hlimit, if_neg (by omega)]
      · rw [if_neg hlimit]
        exact ih hrest (by omega)

theorem readUnsignedChars_eq {text : String} (h : IsInteger text.toList) :
    Text.readUnsignedChars text.toList =
      if Text.magnitude text < Nat.pow 2 64 then .ok (Text.magnitude text)
      else .error .outOfRange := by
  have hne : text.toList.isEmpty = false := by
    obtain ⟨d, ds, heq, -⟩ := h.exists_eq
    rw [heq]
    rfl
  obtain ⟨hbase, hdigits⟩ := h.allDigits
  unfold Text.readUnsignedChars
  simp only [hne, Bool.false_eq_true, if_false, h.separators]
  rw [readDigits_eq hbase hdigits (by decide)]
  change (if Text.magnitude text < Nat.pow 2 64 then _ else _) >>= _ = _
  split <;> rfl

theorem splitSign_of_isInteger {cs : List Char} (h : IsInteger cs) :
    Text.splitSign cs = (false, cs) := by
  obtain ⟨d, ds, rfl, hd⟩ := h.exists_eq
  unfold Text.splitSign
  split
  · next heq =>
    cases heq
    exact absurd hd (by decide)
  · next heq =>
    cases heq
    exact absurd hd (by decide)
  · rfl

/-- A value that fits in 63 bits is that of a signed number. -/
theorem applySign_eq_ok_iff {negative : Bool} {n : Nat} {v : Int64} :
    Text.applySign negative n = .ok v ↔ v.toInt = if negative then -(n : Int) else n := by
  have hlt := v.toInt_lt
  have hle := v.le_toInt
  unfold Text.applySign
  cases negative with
  | true =>
    simp only [if_true]
    by_cases hn : Nat.pow 2 63 < n
    · rw [if_pos hn]
      simp only [reduceCtorEq, false_iff]
      have hn' : 2 ^ 63 < n := hn
      omega
    · have hn' : ¬2 ^ 63 < n := hn
      rw [if_neg hn, Except.ok.injEq, ← Int64.toInt_inj,
        Int64.toInt_ofInt_of_le (by omega) (by omega)]
      exact eq_comm
  | false =>
    simp only [Bool.false_eq_true, if_false]
    by_cases hn : Nat.pow 2 63 ≤ n
    · rw [if_pos hn]
      simp only [reduceCtorEq, false_iff]
      have hn' : 2 ^ 63 ≤ n := hn
      omega
    · have hn' : ¬2 ^ 63 ≤ n := hn
      rw [if_neg hn, Except.ok.injEq, ← Int64.toInt_inj,
        Int64.toInt_ofInt_of_le (by omega) (by omega)]
      exact eq_comm

/-- **An integer is read just if its value fits**, with its sign if it has one. -/
theorem readSigned_eq_ok_iff {negative : Bool} {text : String} {v : Int64}
    (h : IsInteger text.toList) :
    Text.readSigned (if negative then "-" ++ text else text) = .ok v ↔
      v.toInt = if negative then -(Text.magnitude text : Int) else Text.magnitude text := by
  have hsplit : Text.splitSign (if negative then "-" ++ text else text).toList =
      (negative, text.toList) := by
    cases negative with
    | true => simp [Text.splitSign]
    | false => simpa using splitSign_of_isInteger h
  unfold Text.readSigned
  rw [hsplit]
  simp only [readUnsignedChars_eq h]
  by_cases hfits : Text.magnitude text < Nat.pow 2 64
  · rw [if_pos hfits]
    exact applySign_eq_ok_iff
  · rw [if_neg hfits]
    have hlarge : ¬Text.magnitude text < 2 ^ 64 := hfits
    have hlt := v.toInt_lt
    have hle := v.le_toInt
    constructor
    · intro hok
      cases hok
    · intro hv
      split at hv <;> omega

end Midend.Source
