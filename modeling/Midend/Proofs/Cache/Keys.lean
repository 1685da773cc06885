import Midend.Cache.Store
import Midend.Proofs.Source.Spelling

/-!
# What a key tells apart

The key of a program is a digest of its text, a zero byte and the text of the options.  The text of the
options has no zero byte, so the last one is where it begins; and its parts are numbers and truth values,
in which there is no comma.

## Main results

* `append_cons_inj`, `append_cons_inj_of_last`: how a mark splits a list.
* `optionsText_injective`: the text of the options tells them apart, but for verifying.
* `zero_not_mem_optionsText`: there is no zero byte in it.
* `keyBytes_eq_iff`: what is digested tells texts and options apart, whatever bytes the text has.
-/

namespace Midend.Cache

/-- A mark that does not occur in front splits a list in one way. -/
theorem append_cons_inj {α : Type} {x : α} {a b s s' : List α} (ha : x ∉ a) (hb : x ∉ b)
    (h : a ++ x :: s = b ++ x :: s') : a = b ∧ s = s' := by
  induction a generalizing b with
  | nil =>
    cases b with
    | nil => exact ⟨rfl, (List.cons.inj h).2⟩
    | cons y b =>
      obtain rfl := (List.cons.inj h).1
      exact absurd List.mem_cons_self hb
  | cons y a ih =>
    cases b with
    | nil =>
      obtain rfl := (List.cons.inj h).1
      exact absurd List.mem_cons_self ha
    | cons z b =>
      rw [List.mem_cons, not_or] at ha hb
      obtain ⟨rfl, htail⟩ := List.cons.inj h
      obtain ⟨rfl, hs⟩ := ih ha.2 hb.2 htail
      exact ⟨rfl, hs⟩

/-- So does a mark that does not occur behind. -/
theorem append_cons_inj_of_last {α : Type} {x : α} {a b s s' : List α} (hs : x ∉ s) (hs' : x ∉ s')
    (h : a ++ x :: s = b ++ x :: s') : a = b ∧ s = s' := by
  have hreverse := congrArg List.reverse h
  simp only [List.reverse_append, List.reverse_cons, List.append_assoc, List.singleton_append] at hreverse
  obtain ⟨hleft, hright⟩ := append_cons_inj (by simpa using hs) (by simpa using hs') hreverse
  exact ⟨List.reverse_inj.mp hright, List.reverse_inj.mp hleft⟩

/-! ### Numbers -/

/-- The characters of a number. -/
theorem isDigit_or_minus_of_mem {n : Int} {d : Char} (h : d ∈ (toString n).toList) :
    d = '-' ∨ d.isDigit = true := by
  have hnat : ∀ m : Nat, d ∈ m.repr.toList → d.isDigit = true := fun m hm => by
    rw [Nat.toList_repr] at hm
    exact Nat.isDigit_of_mem_toDigits (by decide) (by decide) hm
  cases n with
  | ofNat m => exact .inr (hnat m h)
  | negSucc m =>
    have htext : toString (Int.negSucc m) = "-" ++ (m + 1).repr := rfl
    rw [htext, String.toList_append] at h
    rcases List.mem_append.mp h with hminus | hdigit
    · exact .inl (List.mem_singleton.mp hminus)
    · exact .inr (hnat (m + 1) hdigit)

theorem toString_int_injective {m n : Int} (h : toString m = toString n) : m = n := by
  have hnat : ∀ {j k : Nat}, j.repr = k.repr → j = k := fun {j k} hjk => by
    rw [← Source.magnitude_repr j, ← Source.magnitude_repr k, hjk]
  -- A number that is not negative has no sign.
  have hsign : ∀ {j k : Nat}, j.repr ≠ "-" ++ k.repr := fun {j k} hjk => by
    have hmem : '-' ∈ j.repr.toList := by
      rw [hjk, String.toList_append]
      exact List.mem_append_left _ List.mem_cons_self
    rw [Nat.toList_repr] at hmem
    exact absurd (Nat.isDigit_of_mem_toDigits (by decide) (by decide) hmem) (by decide)
  cases m with
  | ofNat j =>
    cases n with
    | ofNat k => exact congrArg Int.ofNat (hnat h)
    | negSucc k => exact absurd h hsign
  | negSucc j =>
    cases n with
    | ofNat k => exact absurd (Eq.symm h) hsign
    | negSucc k =>
      have hlist : ("-" ++ (j + 1).repr).toList = ("-" ++ (k + 1).repr).toList :=
        congrArg String.toList h
      rw [String.toList_append, String.toList_append, List.append_right_inj, String.toList_inj] at hlist
      exact congrArg Int.negSucc (Nat.succ.inj (hnat hlist))

/-! ### The text of the options -/

theorem toList_optionsText (o : Options) :
    (optionsText o).toList = "rounds=".toList ++ ((toString o.maxRounds).toList ++ ',' ::
      ("peephole=".toList ++ ((toString o.peephole).toList ++ ',' ::
        ("constprop=".toList ++ (toString o.constProp).toList)))) := by
  have htext : optionsText o = "rounds=" ++ toString o.maxRounds ++ ",peephole=" ++
      toString o.peephole ++ ",constprop=" ++ toString o.constProp := rfl
  have hfirst : ",peephole=".toList = ',' :: "peephole=".toList := rfl
  have hsecond : ",constprop=".toList = ',' :: "constprop=".toList := rfl
  rw [htext]
  simp only [String.toList_append, List.append_assoc, hfirst, hsecond, List.cons_append]

/-- A number has no character that is neither a digit nor a sign. -/
theorem not_mem_toString_int {d : Char} (hminus : d ≠ '-') (hdigit : d.isDigit = false) (n : Int) :
    d ∉ (toString n).toList := by
  intro hd
  rcases isDigit_or_minus_of_mem hd with heq | hdigit'
  · exact hminus heq
  · rw [hdigit] at hdigit'
    exact Bool.false_ne_true hdigit'

/-- The text of the options tells them apart, but for verifying. -/
theorem optionsText_injective {o o' : Options} (h : optionsText o = optionsText o') :
    o.maxRounds = o'.maxRounds ∧ o.peephole = o'.peephole ∧ o.constProp = o'.constProp := by
  have hnumber := not_mem_toString_int (d := ',') (by decide) (by decide)
  have hcomma : ∀ b : Bool, ',' ∉ (toString b).toList := by decide
  have hbool : ∀ b b' : Bool, (toString b).toList = (toString b').toList → b = b' := by decide
  have hlist := congrArg String.toList h
  rw [toList_optionsText, toList_optionsText, List.append_right_inj] at hlist
  obtain ⟨hrounds, hlist⟩ := append_cons_inj (hnumber _) (hnumber _) hlist
  rw [List.append_right_inj] at hlist
  obtain ⟨hpeephole, hlist⟩ := append_cons_inj (hcomma _) (hcomma _) hlist
  rw [List.append_right_inj] at hlist
  exact ⟨toString_int_injective (String.toList_inj.mp hrounds), hbool _ _ hpeephole, hbool _ _ hlist⟩

theorem eq_nul_of_zero_mem_utf8EncodeChar {d : Char} (h : 0 ∈ String.utf8EncodeChar d) : d = '\x00' := by
  have hbyte : ∀ {n : Nat}, 0 = UInt8.ofNat n → n % 256 = 0 := fun {n} hn => by
    have hnat := congrArg UInt8.toNat hn
    rw [UInt8.toNat_ofNat'] at hnat
    exact hnat.symm
  unfold String.utf8EncodeChar at h
  dsimp only at h
  -- All bytes of a longer form are at least 128.
  split at h
  · have hzero := hbyte (List.mem_singleton.mp h)
    refine Char.ext (UInt32.toNat_inj.mp ?_)
    show d.val.toNat = 0
    omega
  · split at h
    · simp only [List.mem_cons, List.not_mem_nil, or_false] at h
      rcases h with h | h <;> have := hbyte h <;> omega
    · split at h
      · simp only [List.mem_cons, List.not_mem_nil, or_false] at h
        rcases h with h | h | h <;> have := hbyte h <;> omega
      · simp only [List.mem_cons, List.not_mem_nil, or_false] at h
        rcases h with h | h | h | h <;> have := hbyte h <;> omega

/-- There is no zero byte in the text of the options. -/
theorem zero_not_mem_optionsText (o : Options) : 0 ∉ (optionsText o).toUTF8.data.toList := by
  have hbytes : (optionsText o).toUTF8.data.toList =
      (optionsText o).toList.flatMap String.utf8EncodeChar := by
    rw [String.toUTF8_eq_toByteArray, ← String.utf8Encode_toList, List.utf8Encode,
      List.toList_data_toByteArray]
  have hnumber := not_mem_toString_int (d := '\x00') (by decide) (by decide) o.maxRounds
  have hbool : ∀ b : Bool, '\x00' ∉ (toString b).toList := by decide
  rw [hbytes]
  intro hzero
  obtain ⟨d, hd, hmem⟩ := List.mem_flatMap.mp hzero
  obtain rfl := eq_nul_of_zero_mem_utf8EncodeChar hmem
  rw [toList_optionsText] at hd
  simp only [List.mem_append, List.mem_cons, hnumber, hbool, false_or, or_false] at hd
  revert hd
  decide

/-! ### What is digested -/

/-- The last zero byte is the one in front of the text of the options, so that a text cannot be taken for
another one by ending in such a text itself. -/
theorem eq_and_optionsText_eq {source source' : List UInt8} {o o' : Options}
    (h : keyBytes source o = keyBytes source' o') :
    source = source' ∧ optionsText o = optionsText o' := by
  obtain ⟨hsource, hbytes⟩ := append_cons_inj_of_last (zero_not_mem_optionsText o)
    (zero_not_mem_optionsText o') h
  refine ⟨hsource, ?_⟩
  rw [← String.toByteArray_inj, ← String.toUTF8_eq_toByteArray, ← String.toUTF8_eq_toByteArray]
  exact ByteArray.ext (Array.toList_inj.mp hbytes)

/-- Two keys are digests of the same bytes just if the texts are the same and the options ask for the same
rewriting. -/
theorem keyBytes_eq_iff {source source' : List UInt8} {o o' : Options} :
    keyBytes source o = keyBytes source' o' ↔ source = source' ∧ o.maxRounds = o'.maxRounds ∧
      o.peephole = o'.peephole ∧ o.constProp = o'.constProp := by
  constructor
  · intro h
    obtain ⟨hsource, htext⟩ := eq_and_optionsText_eq h
    exact ⟨hsource, optionsText_injective htext⟩
  · rintro ⟨hsource, hrounds, hpeephole, hconstProp⟩
    have htext : optionsText o = optionsText o' := by
      rw [optionsText, optionsText, hrounds, hpeephole, hconstProp]
    rw [keyBytes, keyBytes, hsource, htext]

end Midend.Cache
