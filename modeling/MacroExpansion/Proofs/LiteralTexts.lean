import MacroExpansion.Proofs.OperationTexts

/-! # Texts of literals

The text of a literal tells the literal (`Literal.text_injective`). The text of a string literal tells, too,
where it ends: it is scanned from its opening mark, a backslash together with the character behind it, up
to the first mark that is scanned alone (`scanLiteral`). Whatever follows, that is the closing mark of the
text (`scanLiteral_append`), and without the backslashes the string is there again (`unquoted_quoted`). -/

namespace MacroExpansion

namespace Literal

/-! ## Escapes -/

/-- The characters with a backslash before each of the given ones. -/
def guardAll (c : Char) (chars : List Char) : List Char :=
  chars.flatMap fun d => if d = c then ['\\', c] else [d]

/-- Escaping goes through a string twice: first every backslash is guarded, then every quotation mark. The
backslashes that the second pass writes are not guarded, those of the first pass are left alone. -/
theorem toList_escape (value : String) :
    (escape value).toList = guardAll '"' (guardAll '\\' value.toList) := by
  rw [escape, String.toList_ofList, guardAll, guardAll, List.flatMap_assoc]
  refine List.flatMap_congr fun c _ => ?_
  by_cases hbackslash : c = '\\'
  · subst hbackslash
    decide
  · rw [escapeChar, if_neg hbackslash, if_neg hbackslash, List.flatMap_singleton]

/-! ## Scanning -/

/-- Scans the rest of a string literal up to its closing mark; a character behind a backslash is scanned
together with it. Gives what was scanned and what is behind it. -/
def scanRest : (guarded : Bool) → List Char → Option (List Char × List Char)
  | _, [] => none
  | true, c :: rest => (scanRest false rest).map fun (scanned, behind) => (c :: scanned, behind)
  | false, c :: rest =>
      if c = '"' then some ([c], rest)
      else (scanRest (c = '\\') rest).map fun (scanned, behind) => (c :: scanned, behind)

/-- Scans a string literal from its opening mark. -/
def scanLiteral : List Char → Option (List Char × List Char)
  | [] => none
  | c :: rest =>
      if c = '"' then (scanRest false rest).map fun (scanned, behind) => (c :: scanned, behind)
      else none

/-- The characters up to the closing mark of a string literal, without the backslashes that guard
others. -/
def unescape : (guarded : Bool) → List Char → List Char
  | _, [] => []
  | true, c :: rest => c :: unescape false rest
  | false, c :: rest =>
      if c = '"' then []
      else if c = '\\' then unescape true rest
      else c :: unescape false rest

/-- The string that a text is a literal of, if it is one. -/
def unquoted (text : String) : Option String :=
  match scanLiteral text.toList with
  | some (_ :: rest, []) => some (String.ofList (unescape false rest))
  | _ => none

/-- The escaped characters of a string are scanned up to the mark behind them. -/
theorem scanRest_escaped (chars behind : List Char) :
    scanRest false (chars.flatMap escapeChar ++ '"' :: behind) =
      some (chars.flatMap escapeChar ++ ['"'], behind) := by
  induction chars with
  | nil => rfl
  | cons c chars ih =>
    rw [List.flatMap_cons, List.append_assoc, escapeChar]
    split
    · simp [scanRest, ih]
    · split <;> simp [scanRest, *]

/-- Without their escapes escaped characters are the characters. -/
theorem unescape_escaped (chars behind : List Char) :
    unescape false (chars.flatMap escapeChar ++ '"' :: behind) = chars := by
  induction chars with
  | nil => rfl
  | cons c chars ih =>
    rw [List.flatMap_cons, List.append_assoc, escapeChar]
    split
    · simp [unescape, *]
    · split <;> simp [unescape, *]

/-- The text of a string is its escaped characters between quotation marks. -/
theorem toList_quoted (value : String) :
    (quoted value).toList = '"' :: (value.toList.flatMap escapeChar ++ ['"']) := by
  simp [quoted, escape]

/-- The text of a string literal is scanned to its end, whatever is behind it. -/
theorem scanLiteral_append (value : String) (behind : List Char) :
    scanLiteral ((quoted value).toList ++ behind) = some ((quoted value).toList, behind) := by
  rw [toList_quoted, List.cons_append, List.append_assoc, List.singleton_append, scanLiteral, if_pos rfl,
    scanRest_escaped, Option.map_some]

/-- From its text a string is recovered. -/
@[simp] theorem unquoted_quoted (value : String) : unquoted (quoted value) = some value := by
  have hscan := scanLiteral_append value []
  rw [List.append_nil, toList_quoted] at hscan
  rw [unquoted, toList_quoted, hscan]
  dsimp only
  rw [unescape_escaped, String.ofList_toList]

/-! ## Telling literals from their texts -/

/-- The characters that an integer may begin with. -/
def isNumeral (c : Char) : Bool :=
  c.isDigit || c == '-'

/-- A negative integer is written in digits behind a minus. -/
theorem toList_text_int_of_neg {value : Int64} {n : Nat} (h : value.toInt = Int.negSucc n) :
    (text (.int value)).toList = '-' :: Nat.toDigits 10 (n + 1) := by
  rw [text, h]
  change ("-" ++ (n + 1).repr).toList = _
  rw [String.toList_append, Nat.toList_repr]
  rfl

/-- An integer begins with a digit or with a minus. -/
theorem exists_isNumeral (value : Int64) :
    ∃ c rest, (text (.int value)).toList = c :: rest ∧ isNumeral c = true := by
  cases hvalue : value.toInt with
  | ofNat n =>
    have hnonneg : 0 ≤ value := Int64.le_iff_toInt_le.mpr (by simp [hvalue])
    have hdigits := toList_text_int hnonneg
    obtain ⟨c, rest, hcons⟩ := List.exists_cons_of_ne_nil (Nat.toDigits_ne_nil (b := 10)
      (n := value.toInt.toNat))
    have hdigit : c.isDigit = true :=
      Nat.isDigit_of_mem_toDigits (by decide) (by decide) (hcons ▸ List.mem_cons_self)
    exact ⟨c, rest, hdigits.trans hcons, by rw [isNumeral, hdigit, Bool.true_or]⟩
  | negSucc n => exact ⟨'-', _, toList_text_int_of_neg hvalue, rfl⟩

/-- What begins with another character is no integer. -/
theorem int_text_ne {value : Int64} {c : Char} {rest : List Char} (hc : isNumeral c = false) :
    (text (.int value)).toList ≠ c :: rest := by
  obtain ⟨d, digits, htext, hd⟩ := exists_isNumeral value
  intro h
  obtain ⟨rfl, -⟩ := List.cons.inj (htext.symm.trans h)
  cases hd.symm.trans hc

/-- Integers are told by their texts. -/
theorem text_int_injective {value other : Int64} (h : text (.int value) = text (.int other)) :
    value = other := by
  have hchars := congrArg String.toList h
  have hnonneg {value : Int64} {n : Nat} (hvalue : value.toInt = Int.ofNat n) : 0 ≤ value :=
    Int64.le_iff_toInt_le.mpr (by simp [hvalue])
  -- no digit is a minus
  have hsigns {value : Int64} {n : Nat} {rest : List Char} (hvalue : value.toInt = Int.ofNat n) :
      (text (.int value)).toList ≠ '-' :: rest := by
    rw [toList_text_int (hnonneg hvalue)]
    intro hminus
    have hdigit : '-'.isDigit = true :=
      Nat.isDigit_of_mem_toDigits (by decide) (by decide) (hminus ▸ List.mem_cons_self)
    cases hdigit
  cases hvalue : value.toInt with
  | ofNat n =>
    cases hother : other.toInt with
    | ofNat m => exact int_text_injective (hnonneg hvalue) (hnonneg hother) h
    | negSucc m => exact absurd (hchars.trans (toList_text_int_of_neg hother)) (hsigns hvalue)
  | negSucc n =>
    rw [toList_text_int_of_neg hvalue] at hchars
    cases hother : other.toInt with
    | ofNat m => exact absurd hchars.symm (hsigns hother)
    | negSucc m =>
      rw [toList_text_int_of_neg hother] at hchars
      have hnat : n + 1 = m + 1 := by
        rw [← Nat.ofDigitChars_ten_toDigits (n := n + 1), (List.cons.inj hchars).2,
          Nat.ofDigitChars_ten_toDigits]
      rw [Nat.succ.inj hnat] at hvalue
      exact Int64.toInt_inj.mp (hvalue.trans hother.symm)

/-- A literal is told by its text. -/
theorem text_injective : Function.Injective text := by
  intro literal other h
  have hchars := congrArg String.toList h
  cases literal with
  | int value =>
    cases other with
    | int other => exact congrArg Literal.int (text_int_injective h)
    | bool other => cases other <;> exact absurd hchars (int_text_ne rfl)
    | string other => exact absurd (hchars.trans (toList_quoted other)) (int_text_ne rfl)
    | null => exact absurd hchars (int_text_ne rfl)
  | bool value =>
    cases other with
    | int other => cases value <;> exact absurd hchars.symm (int_text_ne rfl)
    | bool other =>
      revert h
      cases value <;> cases other <;> decide
    | string other => cases value <;> simp [text, toList_quoted] at hchars
    | null => cases value <;> simp [text] at h
  | string value =>
    cases other with
    | int other => exact absurd (hchars.symm.trans (toList_quoted value)) (int_text_ne rfl)
    | bool other => cases other <;> simp [text, toList_quoted] at hchars
    | string other =>
      have hsame : some value = some other := by
        rw [← unquoted_quoted value, ← unquoted_quoted other]
        exact congrArg unquoted h
      exact congrArg Literal.string (Option.some.inj hsame)
    | null => simp [text, toList_quoted] at hchars
  | null =>
    cases other with
    | int other => exact absurd hchars.symm (int_text_ne rfl)
    | bool other => cases other <;> simp [text] at h
    | string other => simp [text, toList_quoted] at hchars
    | null => rfl

end Literal

end MacroExpansion
