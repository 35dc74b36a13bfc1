import ForthDB.Lib.Slices
import ForthDB.Snapshot.Capture

/-!
# The string tables of an image file

A table is a count, a directory of offsets and the texts one behind the other. Nothing is
copied when a file is opened: `value` cuts a text out of the mapping, and `lookup` halves
the directory.

* `t.Holds mapping values`: the table reads as a strictly sorted list of texts.
* `holds_of_parse`: every table that is opened does.
* `Holds.lookup_iff`: then `lookup` finds a text exactly at the index where `value` reads it.
* `parse_encode`: the bytes that `create` writes are opened as the texts they were made of.
-/

namespace ForthDB

open Bytes

/-- `read_u32_at`. -/
def readU32At (bytes : List UInt8) (offset : ℕ) : Except String ℕ :=
  match numberAt 4 bytes offset with
  | some n => .ok n
  | none => .error "truncated u32"

/-- `read_u64_at`. -/
def readU64At (bytes : List UInt8) (offset : ℕ) : Except String ℕ :=
  match numberAt 8 bytes offset with
  | some n => .ok n
  | none => .error "truncated u64"

/-- `n` readings at the indexes from `index` on. -/
def readEach {α : Type} (read : ℕ → Except String α) : ℕ → ℕ → Except String (List α)
  | _, 0 => .ok []
  | index, n + 1 =>
    match read index with
    | .error e => .error e
    | .ok a =>
      match readEach read (index + 1) n with
      | .error e => .error e
      | .ok as => .ok (a :: as)

structure StringTable where
  start : ℕ
  stop : ℕ
  offsets : List ℕ
  blobStart : ℕ
deriving DecidableEq, Repr

namespace StringTable

def len (t : StringTable) : ℕ := t.offsets.length - 1

def value (t : StringTable) (mapping : List UInt8) (index : ℕ) : Except String String :=
  match t.offsets[index]? with
  | none => .error "string token is out of range"
  | some start =>
    match t.offsets[index + 1]? with
    | none => .error "string token terminator is out of range"
    | some stop =>
      let absolute := t.start + t.blobStart
      match slice mapping (absolute + start) (absolute + stop) with
      | none => .error "string token bytes are out of range"
      | some bytes =>
        match ofUtf8 bytes with
        | some text => .ok text
        | none => .error historyWording.utf8

/-- The last loop of `parse`. -/
def checkSorted (t : StringTable) (mapping : List UInt8) :
    List ℕ → Option String → Except String Unit
  | [], _ => .ok ()
  | index :: rest, previous =>
    match t.value mapping index with
    | .error e => .error e
    | .ok value =>
      if previous.any fun prior => decide (value ≤ prior) then
        .error "string-table values are not strictly sorted"
      else checkSorted t mapping rest (some value)

def parse (mapping : List UInt8) (start stop : ℕ) : Except String StringTable :=
  match slice mapping start stop with
  | none => .error "string-table section is out of range"
  | some bytes =>
    if bytes.length < 8 then .error "truncated string-table header"
    else
      match readU32At bytes 0 with
      | .error e => .error e
      | .ok count =>
        let blobStart := 8 + (count + 1) * 8
        if bytes.length < blobStart then .error "truncated string-table offsets"
        else
          match readEach (fun index => readU64At bytes (8 + index * 8)) 0 (count + 1) with
          | .error e => .error e
          | .ok offsets =>
            if offsets.head? ≠ some 0 ∨ ¬ offsets.IsChain (· ≤ ·) ∨
                offsets.getLast?.getD 0 ≠ bytes.length - blobStart then
              .error "invalid string-table offset directory"
            else
              let table : StringTable := ⟨start, stop, offsets, blobStart⟩
              match table.checkSorted mapping (List.range table.len) none with
              | .error e => .error e
              | .ok () => .ok table

/-- The halving loop of `lookup`; `fuel` bounds the number of rounds. -/
def search (t : StringTable) (mapping : List UInt8) (value : String) : ℕ → ℕ → ℕ → Option ℕ
  | 0, _, _ => none
  | fuel + 1, low, high =>
    if low < high then
      let middle := low + (high - low) / 2
      match t.value mapping middle with
      | .error _ => none
      | .ok candidate =>
        if candidate < value then search t mapping value fuel (middle + 1) high
        else if value < candidate then search t mapping value fuel low middle
        else if middle < 2 ^ 32 then some middle
        else none
    else none

def lookup (t : StringTable) (mapping : List UInt8) (value : String) : Option ℕ :=
  t.search mapping value t.len 0 t.len

/-- The table reads as a strictly sorted list of texts. -/
structure Holds (t : StringTable) (mapping : List UInt8) (values : List String) : Prop where
  len : t.len = values.length
  value : ∀ i v, t.value mapping i = .ok v ↔ values[i]? = some v
  sorted : values.Pairwise (· < ·)
  fits : values.length < 2 ^ 32

variable {t : StringTable} {mapping : List UInt8} {values : List String}

/-- The halving loop reads the table as the list. -/
theorem Holds.search_eq (h : t.Holds mapping values) (value : String) (fuel low high : ℕ) :
    t.search mapping value fuel low high = SortedTable.search values value fuel low high := by
  induction fuel generalizing low high with
  | zero => rfl
  | succ fuel ih =>
    unfold search SortedTable.search
    split
    · simp only
      generalize low + (high - low) / 2 = middle
      cases hv : t.value mapping middle with
      | error e =>
        have hnone : values[middle]? = none := by
          by_contra hne
          obtain ⟨v, hsome⟩ := Option.ne_none_iff_exists'.1 hne
          have hok := (h.value middle v).2 hsome
          rw [hv] at hok
          cases hok
        rw [hnone]
      | ok candidate =>
        have hsome := (h.value middle candidate).1 hv
        have hlt := (List.getElem?_eq_some_iff.1 hsome).1
        have hfits := h.fits
        simp only [hsome, ih]
        rw [if_pos (show middle < 2 ^ 32 by omega)]
    · rfl

/-- **A table is searched exactly**: a text is found at the index where it is read, and only there. -/
theorem Holds.lookup_iff (h : t.Holds mapping values) {value : String} {i : ℕ} :
    t.lookup mapping value = some i ↔ t.value mapping i = .ok value := by
  unfold lookup
  rw [h.search_eq, h.len, h.value]
  exact SortedTable.lookup_iff h.sorted

theorem Holds.lookup_eq (h : t.Holds mapping values) (value : String) :
    t.lookup mapping value = SortedTable.lookup values value := by
  unfold lookup
  rw [h.search_eq, h.len]
  rfl

end StringTable

section Readings

variable {α : Type} {read : ℕ → Except String α}

theorem readEach_of_get {as : List α} {index : ℕ}
    (h : ∀ k a, as[k]? = some a → read (index + k) = .ok a) :
    readEach read index as.length = .ok as := by
  induction as generalizing index with
  | nil => rfl
  | cons a as ih =>
    have hhead : read index = .ok a := h 0 a rfl
    have hrest : readEach read (index + 1) as.length = .ok as := by
      apply ih
      intro k b hb
      rw [show index + 1 + k = index + (k + 1) by omega]
      exact h (k + 1) b (by simpa using hb)
    rw [List.length_cons, readEach, hhead]
    simp only [hrest]

theorem readEach_ok {as : List α} {index n : ℕ} (h : readEach read index n = .ok as) :
    as.length = n ∧ ∀ k a, as[k]? = some a → read (index + k) = .ok a := by
  induction n generalizing index as with
  | zero =>
    cases h
    exact ⟨rfl, fun k a ha => by simp at ha⟩
  | succ n ih =>
    unfold readEach at h
    split at h
    · cases h
    rename_i a ha
    split at h
    · cases h
    rename_i rest hrest
    cases h
    obtain ⟨hlen, hget⟩ := ih hrest
    refine ⟨by simp [hlen], ?_⟩
    intro k b hb
    cases k with
    | zero =>
      obtain rfl : a = b := by simpa using hb
      exact ha
    | succ k =>
      rw [show index + (k + 1) = index + 1 + k by omega]
      exact hget k b (by simpa using hb)

end Readings

namespace StringTable

variable {t : StringTable} {mapping : List UInt8} {values : List String}

/-- A run of the sortedness loop read a strictly ascending list above the text before it. -/
theorem checkSorted_ok {indexes : List ℕ} {previous : Option String}
    (h : t.checkSorted mapping indexes previous = .ok ()) :
    ∃ values : List String, values.length = indexes.length ∧
      (∀ (k i : ℕ) (v : String), indexes[k]? = some i → values[k]? = some v → t.value mapping i = .ok v) ∧
      (∀ prior v : String, previous = some prior → v ∈ values → prior < v) ∧
      values.Pairwise (· < ·) := by
  induction indexes generalizing previous with
  | nil => exact ⟨[], rfl, by simp, by simp, .nil⟩
  | cons index indexes ih =>
    unfold checkSorted at h
    split at h
    · cases h
    rename_i value hvalue
    split at h
    · cases h
    rename_i hprevious
    obtain ⟨values, hlen, hget, habove, hsorted⟩ := ih h
    have hlt : ∀ prior, previous = some prior → prior < value := by
      intro prior hprior
      rw [hprior] at hprevious
      simpa using hprevious
    refine ⟨value :: values, by simp [hlen], ?_, ?_, ?_⟩
    · intro k i v hi hv
      cases k with
      | zero =>
        obtain rfl : index = i := by simpa using hi
        obtain rfl : value = v := by simpa using hv
        exact hvalue
      | succ k => exact hget k i v (by simpa using hi) (by simpa using hv)
    · intro prior v hprior hv
      rcases List.mem_cons.1 hv with rfl | hv
      · exact hlt prior hprior
      · exact lt_trans (hlt prior hprior) (habove value v rfl hv)
    · exact List.pairwise_cons.2 ⟨fun v hv => habove value v rfl hv, hsorted⟩

/-- A text is read only below the length. -/
theorem lt_len_of_value {i : ℕ} {v : String} (h : t.value mapping i = .ok v) : i < t.len := by
  unfold value at h
  split at h
  · cases h
  split at h
  · cases h
  rename_i stop hstop
  have hlt := (List.getElem?_eq_some_iff.1 hstop).1
  unfold len
  omega

theorem holds_of_checkSorted (h : t.checkSorted mapping (List.range t.len) none = .ok ())
    (hfits : t.len < 2 ^ 32) : ∃ values, t.Holds mapping values := by
  obtain ⟨values, hlen, hget, -, hsorted⟩ := checkSorted_ok h
  rw [List.length_range] at hlen
  have hread : ∀ i v, values[i]? = some v → t.value mapping i = .ok v := by
    intro i v hv
    have hi : i < t.len := by
      rw [← hlen]
      exact (List.getElem?_eq_some_iff.1 hv).1
    exact hget i i v (List.getElem?_range hi) hv
  refine ⟨values, hlen.symm, ?_, hsorted, by rw [hlen]; exact hfits⟩
  intro i v
  refine ⟨fun hv => ?_, hread i v⟩
  have hi : i < values.length := by
    rw [hlen]
    exact lt_len_of_value hv
  have hv' := hread i _ (List.getElem?_eq_getElem hi)
  rw [hv] at hv'
  rw [List.getElem?_eq_getElem hi, Except.ok.inj hv']

theorem readU32At_lt {bytes : List UInt8} {offset n : ℕ} (h : readU32At bytes offset = .ok n) :
    n < 2 ^ 32 := by
  unfold readU32At numberAt at h
  split at h
  · rename_i m hm
    cases h
    obtain ⟨cut, hcut, rfl⟩ := Option.map_eq_some_iff.1 hm
    have hlen := (at_of_slice hcut).2
    have hlt := ofLe_lt cut
    rwa [show cut.length = 4 by omega] at hlt
  · cases h

/-- **Every table that is opened** reads as a strictly sorted list of texts. -/
theorem holds_of_parse {start stop : ℕ} (h : parse mapping start stop = .ok t) :
    ∃ values, t.Holds mapping values := by
  unfold parse at h
  split at h
  · cases h
  split at h
  · cases h
  split at h
  · cases h
  rename_i count hcount
  simp only at h
  split at h
  · cases h
  split at h
  · cases h
  rename_i offsets hoffsets
  split at h
  · cases h
  split at h
  · cases h
  rename_i hsorted
  cases h
  have hlen := (readEach_ok hoffsets).1
  have hlt := readU32At_lt hcount
  apply holds_of_checkSorted hsorted
  show offsets.length - 1 < 2 ^ 32
  omega

/-- Texts that are read in ascending order pass the sortedness loop. -/
theorem checkSorted_of_sorted {indexes : List ℕ} {previous : Option String}
    (hlen : values.length = indexes.length)
    (hget : ∀ (k i : ℕ) (v : String), indexes[k]? = some i → values[k]? = some v →
      t.value mapping i = .ok v)
    (habove : ∀ prior v : String, previous = some prior → v ∈ values → prior < v)
    (hsorted : values.Pairwise (· < ·)) : t.checkSorted mapping indexes previous = .ok () := by
  induction indexes generalizing values previous with
  | nil => rfl
  | cons index indexes ih =>
    cases values with
    | nil => simp at hlen
    | cons value values =>
      obtain ⟨hfirst, hrest⟩ := List.pairwise_cons.1 hsorted
      have hvalue : t.value mapping index = .ok value := hget 0 index value rfl rfl
      have hprevious : ¬ (previous.any fun prior => decide (value ≤ prior)) = true := by
        cases previous with
        | none => simp
        | some prior =>
          have hlt := habove prior value rfl (by simp)
          simpa using hlt
      unfold checkSorted
      rw [hvalue]
      simp only
      rw [if_neg hprevious]
      apply ih (by simpa using hlen) (fun k i v hi hv => hget (k + 1) i v (by simpa using hi)
        (by simpa using hv)) _ hrest
      intro prior v hprior hv
      cases hprior
      exact hfirst v hv

/-! ## What `create` writes -/

/-- Where each text begins, and where the last one ends. -/
def offsetsOf (values : List String) : List ℕ :=
  values.scanl (fun offset value => offset + (utf8 value).length) 0

/-- The number of bytes of some texts. -/
def bytesOf (values : List String) : ℕ := (values.map fun value => (utf8 value).length).sum

theorem length_offsetsOf (values : List String) : (offsetsOf values).length = values.length + 1 :=
  List.length_scanl ..

theorem getElem?_scanl_bytes (values : List String) (offset k : ℕ) (hk : k ≤ values.length) :
    (values.scanl (fun offset value => offset + (utf8 value).length) offset)[k]? =
      some (offset + bytesOf (values.take k)) := by
  induction values generalizing offset k with
  | nil =>
    obtain rfl : k = 0 := by simpa using hk
    rfl
  | cons value values ih =>
    rw [List.scanl_cons]
    cases k with
    | zero => rfl
    | succ k =>
      have h := ih (offset + (utf8 value).length) k (by simpa using hk)
      rw [List.getElem?_cons_succ, h]
      simp [bytesOf, Nat.add_assoc]

theorem getElem?_offsetsOf (values : List String) {k : ℕ} (hk : k ≤ values.length) :
    (offsetsOf values)[k]? = some (bytesOf (values.take k)) := by
  have h := getElem?_scanl_bytes values 0 k hk
  rwa [Nat.zero_add] at h

theorem bytesOf_take_succ {k : ℕ} {v : String} (hv : values[k]? = some v) :
    bytesOf (values.take (k + 1)) = bytesOf (values.take k) + (utf8 v).length := by
  rw [List.take_succ, hv]
  simp [bytesOf]

theorem bytesOf_take_le (values : List String) (k : ℕ) :
    bytesOf (values.take k) ≤ bytesOf values := by
  have h : bytesOf values = bytesOf (values.take k) + bytesOf (values.drop k) := by
    unfold bytesOf
    rw [← List.sum_append, ← List.map_append, List.take_append_drop]
  omega

theorem offsetsOf_isChain (values : List String) : (offsetsOf values).IsChain (· ≤ ·) := by
  rw [List.isChain_iff_getElem]
  intro k hk
  rw [length_offsetsOf] at hk
  have h₁ := getElem?_offsetsOf values (k := k) (by omega)
  have h₂ := getElem?_offsetsOf values (k := k + 1) (by omega)
  rw [List.getElem?_eq_getElem (by rw [length_offsetsOf]; omega), Option.some.injEq] at h₁ h₂
  rw [h₁, h₂, bytesOf_take_succ (List.getElem?_eq_getElem (by omega))]
  exact Nat.le_add_right _ _

theorem offsetsOf_getLast (values : List String) :
    (offsetsOf values).getLast?.getD 0 = bytesOf values := by
  have h := getElem?_offsetsOf values (le_refl _)
  rw [List.take_length] at h
  rw [List.getLast?_eq_getElem?, length_offsetsOf, Nat.add_sub_cancel, h]
  rfl

theorem length_flatMap_utf8 (values : List String) : (values.flatMap utf8).length = bytesOf values := by
  rw [List.length_flatMap]
  rfl

/-- The length of a table. -/
theorem length_table (values : List String) :
    (encodeStringTable values).length = 8 + (values.length + 1) * 8 + bytesOf values := by
  unfold encodeStringTable
  simp only [List.length_append, length_le, length_flatMap_utf8]
  rw [length_flatMap_const (n := 8) (fun _ => length_le 8 _), List.length_scanl]
  omega

/-- The table of some texts that stands at `start`. -/
def tableAt (start : ℕ) (values : List String) : StringTable where
  start := start
  stop := start + (encodeStringTable values).length
  offsets := offsetsOf values
  blobStart := 8 + (values.length + 1) * 8

theorem tableAt_value {start : ℕ} (h : At mapping start (encodeStringTable values)) {i : ℕ}
    {v : String} (hv : values[i]? = some v) : (tableAt start values).value mapping i = .ok v := by
  have hi : i < values.length := (List.getElem?_eq_some_iff.1 hv).1
  have h₁ := getElem?_offsetsOf values (k := i) (by omega)
  have h₂ := getElem?_offsetsOf values (k := i + 1) (by omega)
  have hblob : At mapping (start + (8 + (values.length + 1) * 8)) (values.flatMap utf8) := by
    have hright := h.right.right.right
    rw [length_le, length_le, length_flatMap_const (n := 8) (fun _ => length_le 8 _),
      List.length_scanl] at hright
    rwa [show start + 4 + 4 + 8 * (values.length + 1) = start + (8 + (values.length + 1) * 8) by
      omega] at hright
  have hpiece : slice mapping (start + (8 + (values.length + 1) * 8) + bytesOf (values.take i))
      (start + (8 + (values.length + 1) * 8) + bytesOf (values.take i) + (utf8 v).length) =
        some (utf8 v) := (hblob.piece hv).slice rfl
  unfold value
  simp only [tableAt, h₁, h₂, bytesOf_take_succ hv]
  rw [← Nat.add_assoc (start + _), hpiece]
  simp

theorem tableAt_holds {start : ℕ} (h : At mapping start (encodeStringTable values))
    (hsorted : values.Pairwise (· < ·)) (hfits : values.length < 2 ^ 32) :
    (tableAt start values).Holds mapping values := by
  have hlen : (tableAt start values).len = values.length := by
    show (offsetsOf values).length - 1 = _
    rw [length_offsetsOf, Nat.add_sub_cancel]
  refine ⟨hlen, ?_, hsorted, hfits⟩
  intro i v
  constructor
  · intro hv
    have hi : i < values.length := by
      rw [← hlen]
      exact lt_len_of_value hv
    have hv' := tableAt_value h (List.getElem?_eq_getElem hi)
    rw [hv] at hv'
    rw [List.getElem?_eq_getElem hi, Except.ok.inj hv']
  · intro hv
    exact tableAt_value h hv

/-- **The bytes that `create` writes** are opened as the texts they were made of. -/
theorem parse_encode {start : ℕ} (h : At mapping start (encodeStringTable values))
    (hsorted : values.Pairwise (· < ·)) (hcount : values.length < 2 ^ 32)
    (hbytes : bytesOf values < 2 ^ 64) :
    parse mapping start (start + (encodeStringTable values).length) =
      .ok (tableAt start values) := by
  have hslice := h.slice rfl
  have hlen := length_table values
  have hself := At.refl (encodeStringTable values)
  have hnumber : readU32At (encodeStringTable values) 0 = .ok values.length := by
    unfold readU32At
    rw [hself.left.number hcount]
  have hoffsets : readEach (fun index => readU64At (encodeStringTable values) (8 + index * 8)) 0
      (values.length + 1) = .ok (offsetsOf values) := by
    rw [← length_offsetsOf]
    apply readEach_of_get
    intro k offset hk
    have hdirectory := hself.right.right.left.nth (fun _ => length_le 8 _) hk
    rw [length_le, length_le] at hdirectory
    have hlt : offset < 256 ^ 8 := by
      have hk' : k ≤ values.length := by
        have := (List.getElem?_eq_some_iff.1 hk).1
        rw [length_offsetsOf] at this
        omega
      rw [getElem?_offsetsOf values hk', Option.some.injEq] at hk
      have := bytesOf_take_le values k
      omega
    unfold readU64At
    rw [Nat.zero_add, hdirectory.number hlt]
  have hhead : (offsetsOf values).head? = some 0 := by
    rw [List.head?_eq_getElem?, getElem?_offsetsOf values (Nat.zero_le _)]
    rfl
  have hvalid : ¬ ((offsetsOf values).head? ≠ some 0 ∨ ¬ (offsetsOf values).IsChain (· ≤ ·) ∨
      (offsetsOf values).getLast?.getD 0 ≠
        (encodeStringTable values).length - (8 + (values.length + 1) * 8)) := by
    rw [hhead, offsetsOf_getLast, hlen, Nat.add_sub_cancel_left]
    simp [offsetsOf_isChain]
  have hchecked : (tableAt start values).checkSorted mapping
      (List.range (tableAt start values).len) none = .ok () := by
    have hholds := tableAt_holds h hsorted hcount
    have hlength : values.length = (List.range (tableAt start values).len).length := by
      rw [List.length_range, hholds.len]
    refine checkSorted_of_sorted hlength ?_ (by simp) hsorted
    intro k i v hi hv
    have hk : k < values.length := (List.getElem?_eq_some_iff.1 hv).1
    rw [List.getElem?_range (by rw [hholds.len]; exact hk), Option.some.injEq] at hi
    rw [← hi]
    exact (hholds.value k v).2 hv
  unfold parse
  rw [hslice]
  simp only
  rw [if_neg (by omega), hnumber]
  simp only
  rw [if_neg (by omega), hoffsets]
  simp only
  rw [if_neg hvalid]
  have htable : (⟨start, start + (encodeStringTable values).length, offsetsOf values,
      8 + (values.length + 1) * 8⟩ : StringTable) = tableAt start values := rfl
  rw [htable, hchecked]

end StringTable

end ForthDB
