import Mathlib.Data.List.Sort
import Mathlib.Data.Nat.Digits.Lemmas
import Mathlib.Data.String.Basic
import Mathlib.Order.Basic

/-!
# JSON texts

`dumps` prints a value compactly, with the keys of every object in ascending order; `loads` reads
any text of the grammar. A number with a fraction or an exponent keeps its text, and so do `NaN`
and the infinities. A text with a lone surrogate is refused.

* `loads_dumps`: **what is printed is read back**, with its keys in order.
* `get_sortKeys`: the order of the keys does not show in a lookup.
-/

inductive Json
  | null
  | bool (value : Bool)
  | int (value : ℤ)
  | float (text : String)
  | string (value : String)
  | array (items : List Json)
  | object (entries : List (String × Json))
deriving Repr

namespace Json

def quote : Char := Char.ofNat 0x22

def backslash : Char := Char.ofNat 0x5C

/-! ## Printing -/

/-- The characters that have an escape of one letter. -/
def shortEscapes : List (Char × Char) :=
  [(quote, quote), (backslash, backslash), (Char.ofNat 0x0A, 'n'), (Char.ofNat 0x0D, 'r'),
    (Char.ofNat 0x09, 't'), (Char.ofNat 0x08, 'b'), (Char.ofNat 0x0C, 'f')]

def escapeChar (c : Char) : List Char :=
  match shortEscapes.lookup c with
  | some letter => [backslash, letter]
  | none =>
    if c.toNat < 0x20 then
      [backslash, 'u', '0', '0', Nat.digitChar (c.toNat / 16), Nat.digitChar (c.toNat % 16)]
    else [c]

def quoted (s : String) : List Char := quote :: (s.toList.flatMap escapeChar ++ [quote])

def join (texts : List (List Char)) : List Char := List.intercalate [','] texts

/-- Entries in ascending order of their keys. -/
def sortByKey {α : Type} (entries : List (String × α)) : List (String × α) :=
  entries.insertionSort fun x y => x.1 ≤ y.1

def member (e : String × List Char) : List Char := quoted e.1 ++ ':' :: e.2

mutual

def dumps : Json → List Char
  | .null => "null".toList
  | .bool value => (if value then "true" else "false").toList
  | .int value => (toString value).toList
  | .float text => text.toList
  | .string value => quoted value
  | .array items => '[' :: (join (dumpsItems items) ++ [']'])
  | .object entries =>
    '{' :: (join ((sortByKey (dumpsEntries entries)).map member) ++ ['}'])

def dumpsItems : List Json → List (List Char)
  | [] => []
  | item :: items => dumps item :: dumpsItems items

def dumpsEntries : List (String × Json) → List (String × List Char)
  | [] => []
  | (key, value) :: entries => (key, dumps value) :: dumpsEntries entries

end

mutual

/-- The value with the keys of every object in ascending order. -/
def sortKeys : Json → Json
  | .null => .null
  | .bool value => .bool value
  | .int value => .int value
  | .float text => .float text
  | .string value => .string value
  | .array items => .array (sortItems items)
  | .object entries => .object (sortByKey (sortEntries entries))

def sortItems : List Json → List Json
  | [] => []
  | item :: items => sortKeys item :: sortItems items

def sortEntries : List (String × Json) → List (String × Json)
  | [] => []
  | (key, value) :: entries => (key, sortKeys value) :: sortEntries entries

end

/-! ## Reading -/

def isSpace (c : Char) : Bool :=
  c = ' ' ∨ c = Char.ofNat 0x09 ∨ c = Char.ofNat 0x0A ∨ c = Char.ofNat 0x0D

def skip (cs : List Char) : List Char := cs.dropWhile isSpace

def hexValue (c : Char) : Option ℕ :=
  if '0' ≤ c ∧ c ≤ '9' then some (c.toNat - '0'.toNat)
  else if 'a' ≤ c ∧ c ≤ 'f' then some (c.toNat - 'a'.toNat + 10)
  else if 'A' ≤ c ∧ c ≤ 'F' then some (c.toNat - 'A'.toNat + 10)
  else none

def hex4 : List Char → Option (ℕ × List Char)
  | a :: b :: c :: d :: rest => do
    let a ← hexValue a
    let b ← hexValue b
    let c ← hexValue c
    let d ← hexValue d
    pure (((a * 16 + b) * 16 + c) * 16 + d, rest)
  | _ => none

/-- The letters of the escapes, with what they stand for. -/
def longEscapes : List (Char × Char) :=
  ('/', '/') :: shortEscapes.map fun e => (e.2, e.1)

/-- What follows a backslash. -/
def scanEscape : List Char → Option (Char × List Char)
  | [] => none
  | letter :: rest =>
    match longEscapes.lookup letter with
    | some c => some (c, rest)
    | none =>
      if letter = 'u' then do
        let (unit, rest) ← hex4 rest
        if 0xD800 ≤ unit ∧ unit < 0xDC00 then
          -- the first half of a surrogate pair
          match rest with
          | c :: u :: rest =>
            if c = backslash ∧ u = 'u' then do
              let (low, rest) ← hex4 rest
              if 0xDC00 ≤ low ∧ low < 0xE000 then
                pure (Char.ofNat (0x10000 + (unit - 0xD800) * 0x400 + (low - 0xDC00)), rest)
              else none
            else none
          | _ => none
        else if 0xDC00 ≤ unit ∧ unit < 0xE000 then none
        else pure (Char.ofNat unit, rest)
      else none

def scanChar : List Char → Option (Char × List Char)
  | [] => none
  | c :: rest =>
    if c = backslash then scanEscape rest
    else if c.toNat < 0x20 then none
    else some (c, rest)

/-- What follows an opening quote. Every step takes a character, so the length is enough fuel. -/
def scanString : ℕ → List Char → Option (List Char × List Char)
  | 0, _ => none
  | _ + 1, [] => none
  | fuel + 1, c :: rest =>
    if c = quote then some ([], rest)
    else do
      let (c, rest) ← scanChar (c :: rest)
      let (s, rest) ← scanString fuel rest
      pure (c :: s, rest)

def integerPart : List Char → Option (List Char × List Char)
  | [] => none
  | c :: rest =>
    if c = '0' then some (['0'], rest)
    else if c.isDigit then some (c :: rest.takeWhile Char.isDigit, rest.dropWhile Char.isDigit)
    else none

/-- The digits after some text, if there is one. -/
def digitsAfter (text : List Char) (rest : List Char) : Option (List Char × List Char) :=
  let digits := rest.takeWhile Char.isDigit
  if digits = [] then none else some (text ++ digits, rest.dropWhile Char.isDigit)

def fractionPart : List Char → Option (List Char × List Char)
  | c :: rest => if c = '.' then digitsAfter [c] rest else none
  | [] => none

def exponentPart : List Char → Option (List Char × List Char)
  | c :: sign :: rest =>
    if c = 'e' ∨ c = 'E' then
      if sign = '+' ∨ sign = '-' then digitsAfter [c, sign] rest else digitsAfter [c] (sign :: rest)
    else none
  | _ => none

def scanUnsigned (sign : List Char) (cs : List Char) : Option (Json × List Char) := do
  let (whole, rest) ← integerPart cs
  let (fraction, rest) := (fractionPart rest).getD ([], rest)
  let (exponent, rest) := (exponentPart rest).getD ([], rest)
  let magnitude : ℤ := (Nat.ofDigitChars 10 whole 0 : ℕ)
  if fraction ++ exponent = [] then
    pure (.int (if sign = [] then magnitude else -magnitude), rest)
  else pure (.float (String.ofList (sign ++ whole ++ fraction ++ exponent)), rest)

def scanNumber : List Char → Option (Json × List Char)
  | [] => none
  | c :: rest => if c = '-' then scanUnsigned [c] rest else scanUnsigned [] (c :: rest)

def literals : List (String × Json) :=
  [("null", .null), ("true", .bool true), ("false", .bool false), ("NaN", .float "NaN"),
    ("Infinity", .float "Infinity"), ("-Infinity", .float "-Infinity")]

def scanLiteral (cs : List Char) : Option (Json × List Char) :=
  literals.findSome? fun e =>
    if e.1.toList.isPrefixOf cs then some (e.2, cs.drop e.1.length) else none

/-- `entries[key] = value`. -/
def put (entries : List (String × Json)) (entry : String × Json) : List (String × Json) :=
  if entry.1 ∈ entries.map Prod.fst then
    entries.map fun e => if e.1 = entry.1 then entry else e
  else entries ++ [entry]

/-- The last value of a key counts. -/
def ofEntries (entries : List (String × Json)) : Json := .object (entries.foldl put [])

mutual

def scanOnce : ℕ → List Char → Option (Json × List Char)
  | 0, _ => none
  | _ + 1, [] => none
  | fuel + 1, c :: rest =>
    if c = quote then (scanString fuel rest).map fun p => (.string (String.ofList p.1), p.2)
    else if c = '[' then
      match skip rest with
      | [] => none
      | d :: rest =>
        if d = ']' then some (.array [], rest)
        else (scanItems fuel (d :: rest)).map fun p => (.array p.1, p.2)
    else if c = '{' then
      match skip rest with
      | [] => none
      | d :: rest =>
        if d = '}' then some (ofEntries [], rest)
        else (scanEntries fuel (d :: rest)).map fun p => (ofEntries p.1, p.2)
    else (scanLiteral (c :: rest)).or (scanNumber (c :: rest))

/-- The items of an array, up to its end. -/
def scanItems : ℕ → List Char → Option (List Json × List Char)
  | 0, _ => none
  | fuel + 1, cs => do
    let (value, rest) ← scanOnce fuel cs
    match skip rest with
    | [] => none
    | d :: rest =>
      if d = ']' then pure ([value], rest)
      else if d = ',' then do
        let (values, rest) ← scanItems fuel (skip rest)
        pure (value :: values, rest)
      else none

/-- The entries of an object, up to its end. -/
def scanEntries : ℕ → List Char → Option (List (String × Json) × List Char)
  | 0, _ => none
  | _ + 1, [] => none
  | fuel + 1, c :: cs =>
    if c = quote then do
      let (key, rest) ← scanString fuel cs
      match skip rest with
      | [] => none
      | colon :: rest =>
        if colon = ':' then do
          let (value, rest) ← scanOnce fuel (skip rest)
          match skip rest with
          | [] => none
          | d :: rest =>
            if d = '}' then pure ([(String.ofList key, value)], rest)
            else if d = ',' then do
              let (entries, rest) ← scanEntries fuel (skip rest)
              pure ((String.ofList key, value) :: entries, rest)
            else none
        else none
    else none

end

def loads (cs : List Char) : Option Json := do
  let (value, rest) ← scanOnce (cs.length + 1) (skip cs)
  if skip rest = [] then pure value else none

/-- `value.get(key)` on an object. -/
def get (key : String) : Json → Option Json
  | .object entries => entries.lookup key
  | _ => none

/-! ## Strings are read back -/

theorem hexValue_digitChar : ∀ d < 16, hexValue (Nat.digitChar d) = some d := by decide

/-- A character with a short escape, and its letter. -/
theorem scanEscape_short {c letter : Char} (h : shortEscapes.lookup c = some letter)
    (rest : List Char) : scanEscape (letter :: rest) = some (c, rest) := by
  have hmem : (c, letter) ∈ shortEscapes := by
    obtain ⟨l₁, l₂, hl, -⟩ := List.lookup_eq_some_iff.1 h
    rw [hl]
    simp
  have hall : ∀ e ∈ shortEscapes, longEscapes.lookup e.2 = some e.1 := by decide
  have hlong : longEscapes.lookup letter = some c := hall _ hmem
  simp only [scanEscape, hlong]

theorem quote_ne_backslash : quote ≠ backslash := by decide

/-- An escaped character does not begin with a quote. -/
theorem escapeChar_head (c : Char) : ∃ d ds, escapeChar c = d :: ds ∧ d ≠ quote := by
  unfold escapeChar
  cases h : shortEscapes.lookup c with
  | some letter => exact ⟨_, _, rfl, quote_ne_backslash.symm⟩
  | none =>
    simp only
    by_cases hc : c.toNat < 0x20
    · rw [if_pos hc]
      exact ⟨_, _, rfl, quote_ne_backslash.symm⟩
    · rw [if_neg hc]
      refine ⟨c, [], rfl, ?_⟩
      rintro rfl
      exact absurd h (by decide)

/-- **An escaped character** is read back. -/
theorem scanChar_escapeChar (c : Char) (rest : List Char) :
    scanChar (escapeChar c ++ rest) = some (c, rest) := by
  unfold escapeChar
  cases h : shortEscapes.lookup c with
  | some letter =>
    simp only [List.cons_append, List.nil_append, scanChar, if_true]
    exact scanEscape_short h rest
  | none =>
    simp only
    by_cases hc : c.toNat < 0x20
    · -- a control character, as four hexadecimal digits
      have hu : longEscapes.lookup 'u' = none := by decide
      have h0 : hexValue '0' = some 0 := by decide
      have hhigh := hexValue_digitChar (c.toNat / 16) (by omega)
      have hlow := hexValue_digitChar (c.toNat % 16) (by omega)
      have hunit : ((0 * 16 + 0) * 16 + c.toNat / 16) * 16 + c.toNat % 16 = c.toNat := by omega
      rw [if_pos hc]
      simp only [List.cons_append, List.nil_append, scanChar, if_true, scanEscape, hu, hex4, h0,
        hhigh, hlow, bind, Option.bind, pure, hunit]
      rw [if_neg (by omega), if_neg (by omega), Char.ofNat_toNat]
    · have hne : c ≠ backslash := by
        rintro rfl
        exact absurd h (by decide)
      rw [if_neg hc]
      simp only [List.cons_append, List.nil_append, scanChar, if_neg hne, if_neg hc]

/-- **A string** is read back. -/
theorem scanString_escaped {s : List Char} {fuel : ℕ} (h : s.length < fuel) (rest : List Char) :
    scanString fuel (s.flatMap escapeChar ++ quote :: rest) = some (s, rest) := by
  induction s generalizing fuel with
  | nil =>
    obtain ⟨fuel, rfl⟩ : ∃ f, fuel = f + 1 := ⟨fuel - 1, by simp at h; omega⟩
    simp [scanString]
  | cons c s ih =>
    rw [List.length_cons] at h
    obtain ⟨fuel, rfl⟩ : ∃ f, fuel = f + 1 := ⟨fuel - 1, by omega⟩
    obtain ⟨d, ds, hescape, hd⟩ := escapeChar_head c
    have hchar := scanChar_escapeChar c (s.flatMap escapeChar ++ quote :: rest)
    have hrest := @ih fuel (by omega)
    rw [List.flatMap_cons, List.append_assoc]
    rw [hescape, List.cons_append] at hchar ⊢
    simp only [scanString, if_neg hd, hchar, bind, Option.bind, hrest, pure]

theorem length_escaped (s : List Char) : s.length ≤ (s.flatMap escapeChar).length := by
  induction s with
  | nil => exact le_rfl
  | cons c s ih =>
    obtain ⟨d, ds, hescape, -⟩ := escapeChar_head c
    rw [List.flatMap_cons, hescape]
    simp only [List.length_cons, List.length_append]
    omega

/-! ## Numbers are read back -/

/-- What follows a number does not go on with it. -/
def Stops (rest : List Char) : Prop :=
  ∀ c ∈ rest.head?, c.isDigit = false ∧ c ≠ '.' ∧ c ≠ 'e' ∧ c ≠ 'E'

theorem stops_nil : Stops [] := by
  intro c h
  cases h

theorem Stops.dropWhile {rest : List Char} (h : Stops rest) :
    rest.takeWhile Char.isDigit = [] ∧ rest.dropWhile Char.isDigit = rest := by
  cases rest with
  | nil => exact ⟨rfl, rfl⟩
  | cons c rest =>
    obtain ⟨hdigit, -⟩ := h c rfl
    exact ⟨List.takeWhile_cons_of_neg (by simp [hdigit]), List.dropWhile_cons_of_neg (by simp [hdigit])⟩

theorem Stops.parts {rest : List Char} (h : Stops rest) :
    fractionPart rest = none ∧ exponentPart rest = none := by
  cases rest with
  | nil => exact ⟨rfl, rfl⟩
  | cons c rest =>
    obtain ⟨-, hdot, he, hE⟩ := h c rfl
    refine ⟨by simp only [fractionPart, if_neg hdot], ?_⟩
    cases rest with
    | nil => rfl
    | cons d rest => simp only [exponentPart, he, hE, or_self, if_false]

theorem digitChar_eq_zero : ∀ d < 10, Nat.digitChar d = '0' → d = 0 := by decide

/-- The digits of a number begin with a zero only if it is zero. -/
theorem toDigits_head (n : ℕ) :
    ∃ c ds, Nat.toDigits 10 n = c :: ds ∧ c.isDigit = true ∧ (c = '0' → n = 0 ∧ ds = []) := by
  induction n using Nat.strong_induction_on with
  | _ n ih =>
    by_cases hn : n < 10
    · refine ⟨Nat.digitChar n, [], Nat.toDigits_of_lt_base hn, ?_, ?_⟩
      · rw [Nat.isDigit_digitChar]
        exact decide_eq_true hn
      · exact fun h => ⟨digitChar_eq_zero n hn h, rfl⟩
    · obtain ⟨c, ds, hdigits, hdigit, hzero⟩ := ih (n / 10) (by omega)
      refine ⟨c, ds ++ [Nat.digitChar (n % 10)], ?_, hdigit, fun hc => ?_⟩
      · rw [Nat.toDigits_of_base_le (by decide) (by omega), hdigits, List.cons_append]
      · have := (hzero hc).1
        omega

theorem integerPart_toDigits (n : ℕ) {rest : List Char} (h : Stops rest) :
    integerPart (Nat.toDigits 10 n ++ rest) = some (Nat.toDigits 10 n, rest) := by
  obtain ⟨c, ds, hdigits, hdigit, hzero⟩ := toDigits_head n
  obtain ⟨htake, hdrop⟩ := h.dropWhile
  have hds : ∀ d ∈ ds, d.isDigit = true := by
    intro d hd
    refine @Nat.isDigit_of_mem_toDigits 10 n d (by decide) (by decide) ?_
    rw [hdigits]
    exact List.mem_cons_of_mem _ hd
  rw [hdigits, List.cons_append]
  by_cases hc : c = '0'
  · obtain ⟨-, rfl⟩ := hzero hc
    simp only [integerPart, hc, if_true, List.nil_append]
  · simp only [integerPart, if_neg hc, if_pos hdigit, List.takeWhile_append_of_pos hds,
      List.dropWhile_append_of_pos hds, htake, hdrop, List.append_nil]

theorem scanUnsigned_toDigits (sign : List Char) (n : ℕ) {rest : List Char} (h : Stops rest) :
    scanUnsigned sign (Nat.toDigits 10 n ++ rest) =
      some (.int (if sign = [] then (n : ℤ) else -n), rest) := by
  obtain ⟨hfraction, hexponent⟩ := h.parts
  unfold scanUnsigned
  simp only [integerPart_toDigits n h, bind, Option.bind, hfraction, hexponent, Option.getD_none,
    List.append_nil, if_true, pure, Nat.ofDigitChars_ten_toDigits]

/-- A text that begins with a digit or a minus sign and a digit is no literal. -/
theorem scanLiteral_digit {c : Char} (h : c.isDigit = true) (rest : List Char) :
    scanLiteral (c :: rest) = none := by
  have hne : ∀ d : Char, d.isDigit = false → d ≠ c := by
    rintro d hd rfl
    rw [hd] at h
    cases h
  simp [scanLiteral, literals, hne 'n' rfl, hne 't' rfl, hne 'f' rfl, hne 'N' rfl, hne 'I' rfl,
    hne '-' rfl]

theorem scanLiteral_minus {c : Char} (h : c.isDigit = true) (rest : List Char) :
    scanLiteral ('-' :: c :: rest) = none := by
  have hne : 'I' ≠ c := by
    rintro rfl
    cases h
  simp [scanLiteral, literals, hne]

theorem digit_ne {c : Char} (h : c.isDigit = true) :
    c ≠ quote ∧ c ≠ '[' ∧ c ≠ '{' ∧ c ≠ '-' ∧ c ≠ ']' ∧ c ≠ '}' ∧ isSpace c = false := by
  have hne : ∀ d : Char, d.isDigit = false → c ≠ d := by
    rintro d hd rfl
    rw [hd] at h
    cases h
  refine ⟨hne _ rfl, hne _ rfl, hne _ rfl, hne _ rfl, hne _ rfl, hne _ rfl, ?_⟩
  unfold isSpace
  rw [decide_eq_false_iff_not]
  rintro (hc | hc | hc | hc)
  · exact hne _ rfl hc
  · exact hne _ rfl hc
  · exact hne _ rfl hc
  · exact hne _ rfl hc

theorem toList_int (n : ℤ) :
    (toString n).toList =
      if 0 ≤ n then Nat.toDigits 10 n.toNat else '-' :: Nat.toDigits 10 (-n).toNat := by
  rw [Int.toString_eq_repr, Int.repr_eq_if]
  by_cases hn : 0 ≤ n
  · rw [if_pos hn, if_pos hn, Nat.toList_repr]
  · rw [if_neg hn, if_neg hn, String.toList_append, Nat.toList_repr]
    rfl

/-- **A number** is read back. -/
theorem scanOnce_int (n : ℤ) (fuel : ℕ) {rest : List Char} (h : Stops rest) :
    scanOnce (fuel + 1) ((toString n).toList ++ rest) = some (.int n, rest) := by
  rw [toList_int]
  by_cases hn : 0 ≤ n
  · rw [if_pos hn]
    obtain ⟨c, ds, hdigits, hdigit, -⟩ := toDigits_head n.toNat
    obtain ⟨hq, hopen, hbrace, hminus, -⟩ := digit_ne hdigit
    have hscan := scanUnsigned_toDigits [] n.toNat h
    rw [hdigits, List.cons_append] at hscan ⊢
    simp only [scanOnce, if_neg hq, if_neg hopen, if_neg hbrace, scanLiteral_digit hdigit,
      Option.none_or, scanNumber, if_neg hminus, hscan, if_true]
    rw [Int.toNat_of_nonneg hn]
  · rw [if_neg hn]
    obtain ⟨c, ds, hdigits, hdigit, -⟩ := toDigits_head (-n).toNat
    have hscan := scanUnsigned_toDigits ['-'] (-n).toNat h
    have hquote : ('-' : Char) ≠ quote := by decide
    rw [hdigits, List.cons_append] at hscan
    rw [hdigits, List.cons_append, List.cons_append]
    simp only [scanOnce, if_neg hquote, Char.reduceEq, if_false, scanLiteral_minus hdigit,
      Option.none_or, scanNumber, if_true, hscan, List.cons_ne_nil]
    rw [Int.toNat_of_nonneg (by omega), neg_neg]

/-! ## Values are read back -/

/-- A value that `dumps` prints faithfully: a `dict` has every key once. -/
inductive Printable : Json → Prop
  | null : Printable .null
  | bool (value : Bool) : Printable (.bool value)
  | int (value : ℤ) : Printable (.int value)
  | string (value : String) : Printable (.string value)
  | array {items : List Json} : (∀ item ∈ items, Printable item) → Printable (.array items)
  | object {entries : List (String × Json)} : (entries.map Prod.fst).Nodup →
      (∀ e ∈ entries, Printable e.2) → Printable (.object entries)

theorem dumpsItems_eq (items : List Json) : dumpsItems items = items.map dumps := by
  induction items with
  | nil => rfl
  | cons item items ih => rw [dumpsItems, ih, List.map_cons]

theorem dumpsEntries_eq (entries : List (String × Json)) :
    dumpsEntries entries = entries.map fun e => (e.1, dumps e.2) := by
  induction entries with
  | nil => rfl
  | cons e entries ih =>
    obtain ⟨key, value⟩ := e
    rw [dumpsEntries, ih, List.map_cons]

theorem sortItems_eq (items : List Json) : sortItems items = items.map sortKeys := by
  induction items with
  | nil => rfl
  | cons item items ih => rw [sortItems, ih, List.map_cons]

theorem sortEntries_eq (entries : List (String × Json)) :
    sortEntries entries = entries.map fun e => (e.1, sortKeys e.2) := by
  induction entries with
  | nil => rfl
  | cons e entries ih =>
    obtain ⟨key, value⟩ := e
    rw [sortEntries, ih, List.map_cons]

/-- A map that keeps the keys keeps the order. -/
theorem sortByKey_map {α β : Type} (f : String × α → String × β) (hf : ∀ e, (f e).1 = e.1)
    (entries : List (String × α)) : sortByKey (entries.map f) = (sortByKey entries).map f := by
  unfold sortByKey
  refine (List.map_insertionSort _ _ _ _ fun x _ y _ => ?_).symm
  rw [hf, hf]

theorem sortByKey_perm {α : Type} (entries : List (String × α)) :
    (sortByKey entries).Perm entries := List.perm_insertionSort _ _

/-- A key that occurs once is looked up alike in every order. -/
theorem lookup_perm {α : Type} {key : String} {xs ys : List (String × α)} (h : xs.Perm ys)
    (hkeys : (ys.map Prod.fst).Nodup) : xs.lookup key = ys.lookup key := by
  induction h with
  | nil => rfl
  | cons e _ ih =>
    rw [List.map_cons, List.nodup_cons] at hkeys
    rw [List.lookup_cons, List.lookup_cons, ih hkeys.2]
  | swap x y l =>
    have hne : y.1 ≠ x.1 := by
      rw [List.map_cons, List.map_cons, List.nodup_cons, List.mem_cons, not_or] at hkeys
      intro heq
      exact hkeys.1.1 heq.symm
    have hor : (key == x.1) = false ∨ (key == y.1) = false := by
      by_contra hboth
      simp only [not_or, Bool.not_eq_false, beq_iff_eq] at hboth
      exact hne (hboth.2.symm.trans hboth.1)
    rw [List.lookup_cons, List.lookup_cons, List.lookup_cons, List.lookup_cons]
    rcases hor with hx | hy
    · rw [hx]
    · rw [hy]
  | trans h₁ h₂ ih₁ ih₂ =>
    rw [ih₁ ((h₂.map Prod.fst).nodup_iff.2 hkeys), ih₂ hkeys]

theorem foldl_put {entries done : List (String × Json)}
    (h : ((done ++ entries).map Prod.fst).Nodup) : entries.foldl put done = done ++ entries := by
  induction entries generalizing done with
  | nil => rw [List.foldl_nil, List.append_nil]
  | cons e entries ih =>
    have hfresh : e.1 ∉ done.map Prod.fst := by
      rw [List.map_append, List.map_cons, List.nodup_append] at h
      exact fun hmem => h.2.2 _ hmem _ List.mem_cons_self rfl
    have hstep : put done e = done ++ [e] := if_neg hfresh
    rw [List.foldl_cons, hstep, ih (by rwa [List.append_assoc]), List.append_assoc]
    rfl

theorem skip_cons {c : Char} (h : isSpace c = false) (rest : List Char) :
    skip (c :: rest) = c :: rest := List.dropWhile_cons_of_neg (by simp [h])

/-- A printed value begins with a character of its own. -/
theorem dumps_head {v : Json} (h : Printable v) :
    ∃ c text, dumps v = c :: text ∧ isSpace c = false ∧ c ≠ ']' ∧ c ≠ '}' := by
  cases h with
  | null => exact ⟨'n', _, by rw [dumps]; rfl, rfl, by decide, by decide⟩
  | bool value =>
    cases value with
    | true => exact ⟨'t', _, by rw [dumps]; rfl, rfl, by decide, by decide⟩
    | false => exact ⟨'f', _, by rw [dumps]; rfl, rfl, by decide, by decide⟩
  | int n =>
    rw [dumps, toList_int]
    by_cases hn : 0 ≤ n
    · obtain ⟨c, ds, hdigits, hdigit, -⟩ := toDigits_head n.toNat
      obtain ⟨-, -, -, -, hclose, hbrace, hspace⟩ := digit_ne hdigit
      exact ⟨c, ds, by rw [if_pos hn, hdigits], hspace, hclose, hbrace⟩
    · exact ⟨'-', _, by rw [if_neg hn], rfl, by decide, by decide⟩
  | string s => exact ⟨quote, _, by rw [dumps]; rfl, rfl, by decide, by decide⟩
  | array hitems => exact ⟨'[', _, by rw [dumps], rfl, by decide, by decide⟩
  | object hkeys hentries => exact ⟨'{', _, by rw [dumps], rfl, by decide, by decide⟩

theorem skip_dumps {v : Json} (h : Printable v) (rest : List Char) :
    skip (dumps v ++ rest) = dumps v ++ rest := by
  obtain ⟨c, text, htext, hspace, -⟩ := dumps_head h
  rw [htext, List.cons_append, skip_cons hspace]

/-- A value is read back in front of any text that stops it, with as much fuel as it is long. -/
def ReadsBack (v : Json) : Prop :=
  ∀ fuel rest, (dumps v).length ≤ fuel → Stops rest →
    scanOnce fuel (dumps v ++ rest) = some (sortKeys v, rest)

theorem stops_cons {c : Char} (h : c = ',' ∨ c = ']' ∨ c = '}') (rest : List Char) :
    Stops (c :: rest) := by
  intro d hd
  obtain rfl := Option.some.inj hd
  rcases h with rfl | rfl | rfl <;> decide

theorem join_cons (text : List Char) (texts : List (List Char)) :
    join (text :: texts) = text ++ texts.flatMap fun t => ',' :: t := by
  induction texts generalizing text with
  | nil => simp [join]
  | cons t texts ih =>
    have ih' := ih t
    unfold join at ih' ⊢
    rw [List.intercalate_cons_cons, ih', List.flatMap_cons]
    simp

/-- **The items of an array** are read back. -/
theorem scanItems_dumps {item : Json} {items : List Json}
    (hprint : ∀ v ∈ item :: items, Printable v) (h : ∀ v ∈ item :: items, ReadsBack v)
    {fuel : ℕ} (rest : List Char)
    (hfuel : (dumps item ++ (items.map dumps).flatMap fun t => ',' :: t).length < fuel) :
    scanItems fuel (dumps item ++ ((items.map dumps).flatMap fun t => ',' :: t) ++ ']' :: rest) =
      some ((item :: items).map sortKeys, rest) := by
  induction items generalizing item fuel with
  | nil =>
    obtain ⟨fuel, rfl⟩ : ∃ f, fuel = f + 1 := ⟨fuel - 1, by omega⟩
    simp only [List.map_nil, List.flatMap_nil, List.append_nil] at hfuel ⊢
    have hread := h item List.mem_cons_self fuel (']' :: rest) (by omega)
      (stops_cons (.inr (.inl rfl)) rest)
    have hskip : skip (']' :: rest) = ']' :: rest := skip_cons rfl rest
    simp only [scanItems, hread, bind, Option.bind, hskip, if_true, pure, List.map_cons,
      List.map_nil]
  | cons item' items ih =>
    obtain ⟨fuel, rfl⟩ : ∃ f, fuel = f + 1 := ⟨fuel - 1, by omega⟩
    set text := dumps item' ++ (items.map dumps).flatMap fun t => ',' :: t with htext
    have htail : ((item' :: items).map dumps).flatMap (fun t => ',' :: t) = ',' :: text := by
      rw [List.map_cons, List.flatMap_cons, htext, List.cons_append]
    rw [htail] at hfuel ⊢
    rw [List.length_append, List.length_cons] at hfuel
    have hread := h item List.mem_cons_self fuel (',' :: (text ++ ']' :: rest)) (by omega)
      (stops_cons (.inl rfl) _)
    have hcomma : skip (',' :: (text ++ ']' :: rest)) = ',' :: (text ++ ']' :: rest) :=
      skip_cons rfl _
    have hskip : skip (text ++ ']' :: rest) = text ++ ']' :: rest := by
      rw [htext, List.append_assoc]
      exact skip_dumps (hprint item' (by simp)) _
    have hrest := @ih item' (fun v hv => hprint v (List.mem_cons_of_mem _ hv))
      (fun v hv => h v (List.mem_cons_of_mem _ hv)) fuel (by rw [← htext]; omega)
    rw [← htext] at hrest
    rw [List.append_assoc, List.cons_append]
    simp only [scanItems, hread, bind, Option.bind, hcomma, Char.reduceEq, if_false, if_true, hskip,
      hrest, pure, List.map_cons]

/-- **The entries of an object** are read back, in the order in which they are printed. -/
theorem scanEntries_dumps {e : String × Json} {entries : List (String × Json)}
    (hprint : ∀ x ∈ e :: entries, Printable x.2) (h : ∀ x ∈ e :: entries, ReadsBack x.2)
    {fuel : ℕ} (rest : List Char)
    (hfuel : (member (e.1, dumps e.2) ++
      (entries.map fun x => member (x.1, dumps x.2)).flatMap fun t => ',' :: t).length < fuel) :
    scanEntries fuel (member (e.1, dumps e.2) ++
        ((entries.map fun x => member (x.1, dumps x.2)).flatMap fun t => ',' :: t) ++
          '}' :: rest) =
      some ((e :: entries).map fun x => (x.1, sortKeys x.2), rest) := by
  induction entries generalizing e fuel with
  | nil =>
    obtain ⟨key, value⟩ := e
    obtain ⟨fuel, rfl⟩ : ∃ f, fuel = f + 1 := ⟨fuel - 1, by omega⟩
    simp only [List.map_nil, List.flatMap_nil, List.append_nil] at hfuel ⊢
    have hlen := length_escaped key.toList
    simp only [member, quoted, List.length_append, List.length_cons, List.length_nil] at hfuel
    have hkey := @scanString_escaped key.toList fuel (by omega)
      (':' :: (dumps value ++ '}' :: rest))
    have hread := h _ List.mem_cons_self fuel ('}' :: rest) (by simp only; omega)
      (stops_cons (.inr (.inr rfl)) rest)
    have hvalue := skip_dumps (hprint _ List.mem_cons_self) ('}' :: rest)
    have hcolon : skip (':' :: (dumps value ++ '}' :: rest)) =
        ':' :: (dumps value ++ '}' :: rest) := skip_cons rfl _
    have hclose : skip ('}' :: rest) = '}' :: rest := skip_cons rfl rest
    have htext : member (key, dumps value) ++ '}' :: rest =
        quote :: (key.toList.flatMap escapeChar ++ quote :: ':' :: (dumps value ++ '}' :: rest)) := by
      simp [member, quoted]
    simp only [htext, scanEntries, if_true, hkey, bind, Option.bind, hcolon, hvalue, hread, hclose,
      pure, String.ofList_toList, List.map_cons, List.map_nil]
  | cons e' entries ih =>
    obtain ⟨key, value⟩ := e
    obtain ⟨fuel, rfl⟩ : ∃ f, fuel = f + 1 := ⟨fuel - 1, by omega⟩
    set text := member (e'.1, dumps e'.2) ++
      (entries.map fun x => member (x.1, dumps x.2)).flatMap fun t => ',' :: t with htext
    have htail : ((e' :: entries).map fun x => member (x.1, dumps x.2)).flatMap
        (fun t => ',' :: t) = ',' :: text := by
      rw [List.map_cons, List.flatMap_cons, htext, List.cons_append]
    rw [htail] at hfuel ⊢
    have hlen := length_escaped key.toList
    simp only [member, quoted, List.length_append, List.length_cons, List.length_nil] at hfuel
    have hkey := @scanString_escaped key.toList fuel (by omega)
      (':' :: (dumps value ++ ',' :: (text ++ '}' :: rest)))
    have hread := h _ List.mem_cons_self fuel (',' :: (text ++ '}' :: rest)) (by simp only; omega)
      (stops_cons (.inl rfl) _)
    have hvalue := skip_dumps (hprint _ List.mem_cons_self) (',' :: (text ++ '}' :: rest))
    have hcolon : skip (':' :: (dumps value ++ ',' :: (text ++ '}' :: rest))) =
        ':' :: (dumps value ++ ',' :: (text ++ '}' :: rest)) := skip_cons rfl _
    have hcomma : skip (',' :: (text ++ '}' :: rest)) = ',' :: (text ++ '}' :: rest) :=
      skip_cons rfl _
    -- the next entry begins with the quote of its key
    have hskip : skip (text ++ '}' :: rest) = text ++ '}' :: rest := by
      rw [htext]
      exact skip_cons (by decide) _
    have hrest := @ih e' (fun x hx => hprint x (List.mem_cons_of_mem _ hx))
      (fun x hx => h x (List.mem_cons_of_mem _ hx)) fuel (by rw [← htext]; omega)
    rw [← htext] at hrest
    have hwhole : member (key, dumps value) ++ ',' :: text ++ '}' :: rest =
        quote :: (key.toList.flatMap escapeChar ++
          quote :: ':' :: (dumps value ++ ',' :: (text ++ '}' :: rest))) := by
      simp [member, quoted]
    simp only [hwhole, scanEntries, if_true, hkey, bind, Option.bind, hcolon, hvalue, hread, hcomma,
      Char.reduceEq, if_false, hskip, hrest, pure, String.ofList_toList, List.map_cons]

/-- **A value** is read back. -/
theorem Printable.readsBack {v : Json} (h : Printable v) : ReadsBack v := by
  induction h with
  | null =>
    intro fuel rest hfuel _
    obtain ⟨fuel, rfl⟩ : ∃ f, fuel = f + 1 := ⟨fuel - 1, by simp [dumps] at hfuel; omega⟩
    rfl
  | bool value =>
    intro fuel rest hfuel _
    have hpos : 0 < (dumps (.bool value)).length := by cases value <;> simp [dumps]
    obtain ⟨fuel, rfl⟩ : ∃ f, fuel = f + 1 := ⟨fuel - 1, by omega⟩
    cases value with
    | false => rfl
    | true => rfl
  | int n =>
    intro fuel rest hfuel hstop
    rw [dumps, sortKeys]
    have hpos : (toString n).toList ≠ [] := by
      rw [toList_int]
      split <;> simp
    obtain ⟨fuel, rfl⟩ : ∃ f, fuel = f + 1 := by
      have := List.length_pos_iff.2 hpos
      rw [dumps] at hfuel
      exact ⟨fuel - 1, by omega⟩
    exact scanOnce_int n fuel hstop
  | string s =>
    intro fuel rest hfuel _
    have hlen := length_escaped s.toList
    simp only [dumps, quoted, List.length_cons, List.length_append, List.length_nil] at hfuel
    obtain ⟨fuel, rfl⟩ : ∃ f, fuel = f + 1 := ⟨fuel - 1, by omega⟩
    have hstring := @scanString_escaped s.toList fuel (by omega) rest
    have htext : quoted s ++ rest = quote :: (s.toList.flatMap escapeChar ++ quote :: rest) := by
      simp [quoted]
    simp only [dumps, htext, scanOnce, if_true, hstring, Option.map_some, String.ofList_toList,
      sortKeys]
  | @array items hitems ih =>
    intro fuel rest hfuel _
    rw [dumps, dumpsItems_eq] at hfuel ⊢
    rw [sortKeys, sortItems_eq]
    obtain ⟨fuel, rfl⟩ : ∃ f, fuel = f + 1 := ⟨fuel - 1, by simp at hfuel; omega⟩
    have hquote : ('[' : Char) ≠ quote := by decide
    cases items with
    | nil =>
      have hskip : skip (']' :: rest) = ']' :: rest := skip_cons rfl rest
      simp only [List.map_nil, join, List.intercalate_nil, List.nil_append, List.cons_append,
        scanOnce, if_neg hquote, if_true, hskip]
    | cons item items =>
      rw [List.map_cons, join_cons] at hfuel ⊢
      simp only [List.length_cons, List.length_append, List.length_nil] at hfuel
      have hread := @scanItems_dumps item items hitems ih fuel rest
        (by simp only [List.length_append]; omega)
      obtain ⟨c, text, htext, hspace, hclose, -⟩ := dumps_head (hitems item List.mem_cons_self)
      have hskip : skip (dumps item ++ ((items.map dumps).flatMap fun t => ',' :: t) ++
          ']' :: rest) = c :: (text ++ ((items.map dumps).flatMap fun t => ',' :: t) ++
          ']' :: rest) := by
        rw [htext]
        exact skip_cons hspace _
      rw [htext, List.cons_append, List.cons_append] at hread
      rw [List.cons_append, List.append_assoc _ [']'], List.singleton_append]
      simp only [scanOnce, if_neg hquote, if_true, hskip, if_neg hclose, hread, Option.map_some]
  | @object entries hkeys hentries ih =>
    intro fuel rest hfuel _
    have hprinted : (sortByKey (dumpsEntries entries)).map member =
        (sortByKey entries).map fun x => member (x.1, dumps x.2) := by
      rw [dumpsEntries_eq, sortByKey_map (fun e : String × Json => (e.1, dumps e.2)) fun _ => rfl,
        List.map_map]
      rfl
    have hread : sortByKey (sortEntries entries) =
        (sortByKey entries).map fun x => (x.1, sortKeys x.2) := by
      rw [sortEntries_eq, sortByKey_map (fun e : String × Json => (e.1, sortKeys e.2)) fun _ => rfl]
    have hperm := sortByKey_perm entries
    have hnodup : (((sortByKey entries).map fun x => (x.1, sortKeys x.2)).map Prod.fst).Nodup := by
      rw [List.map_map]
      exact (hperm.map Prod.fst).nodup_iff.2 hkeys
    rw [dumps, hprinted] at hfuel ⊢
    rw [sortKeys, hread]
    have hprint' : ∀ x ∈ sortByKey entries, Printable x.2 :=
      fun x hx => hentries x (hperm.mem_iff.1 hx)
    have hback' : ∀ x ∈ sortByKey entries, ReadsBack x.2 := fun x hx => ih x (hperm.mem_iff.1 hx)
    have hput := @foldl_put ((sortByKey entries).map fun x => (x.1, sortKeys x.2)) []
      (by rwa [List.nil_append])
    generalize sortByKey entries = sorted at hfuel hprint' hback' hput ⊢
    obtain ⟨fuel, rfl⟩ : ∃ f, fuel = f + 1 := ⟨fuel - 1, by simp at hfuel; omega⟩
    have hquote : ('{' : Char) ≠ quote := by decide
    cases sorted with
    | nil =>
      have hskip : skip ('}' :: rest) = '}' :: rest := skip_cons rfl rest
      simp only [List.map_nil, join, List.intercalate_nil, List.nil_append, List.cons_append,
        scanOnce, if_neg hquote, Char.reduceEq, if_false, if_true, hskip, ofEntries,
        List.foldl_nil]
    | cons e sorted =>
      rw [List.map_cons, join_cons] at hfuel ⊢
      simp only [List.length_cons, List.length_append, List.length_nil] at hfuel
      have hscan := @scanEntries_dumps e sorted hprint' hback' fuel rest
        (by simp only [List.length_append]; omega)
      have htext : member (e.1, dumps e.2) = quote :: (e.1.toList.flatMap escapeChar ++ [quote] ++
          ':' :: dumps e.2) := by simp [member, quoted]
      have hclose : quote ≠ '}' := by decide
      rw [htext, List.cons_append, List.cons_append] at hscan
      rw [htext, List.cons_append, List.append_assoc _ ['}'], List.singleton_append,
        List.cons_append, List.cons_append]
      simp only [scanOnce, if_neg hquote, Char.reduceEq, if_false, if_true]
      rw [skip_cons (by decide)]
      simp only [if_neg hclose, hscan, Option.map_some, ofEntries, hput, List.nil_append]

/-- **What is printed is read back**, with the keys of every object in order. -/
theorem loads_dumps {v : Json} (h : Printable v) : loads (dumps v) = some (sortKeys v) := by
  have hread := h.readsBack ((dumps v).length + 1) [] (Nat.le_succ _) stops_nil
  have hskip := skip_dumps h []
  rw [List.append_nil] at hread hskip
  unfold loads
  simp only [hskip, hread, bind, Option.bind]
  rfl

/-- **The order of the keys** does not show in a lookup. -/
theorem get_sortKeys {v : Json} (h : Printable v) (key : String) :
    get key (sortKeys v) = (get key v).map sortKeys := by
  cases h with
  | @object entries hkeys hentries =>
    rw [sortKeys, get, get, sortEntries_eq,
      sortByKey_map (fun e : String × Json => (e.1, sortKeys e.2)) fun _ => rfl]
    have hperm := sortByKey_perm entries
    have hmap : ∀ l : List (String × Json),
        (l.map fun e => (e.1, sortKeys e.2)).lookup key = (l.lookup key).map sortKeys := by
      intro l
      induction l with
      | nil => rfl
      | cons e l ih =>
        rw [List.map_cons, List.lookup_cons, List.lookup_cons, ih]
        cases key == e.1 <;> rfl
    rw [hmap, lookup_perm hperm hkeys]
  | _ => simp [sortKeys, get]

end Json
