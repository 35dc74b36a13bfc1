import ForthDB.Snapshot.Create
import ForthDB.Vm.Simulation
import Mathlib.Algebra.Order.BigOperators.Group.List

/-!
# What an image captures

* `s.Links m`: the records of the image `s` link exactly the stacks of `m`, under
  sorted names.
* `create_links`: a written image links the stacks that its world replays to, and
  `create_frames`: it carries that world's history.
* `fromMmap_holds`: a materializer made from a linked image stands for the stacks.
* `fromMmap_replays`: a world made from a written image replays the same history.
-/

namespace ForthDB

open Bytes Decode

namespace ImageNames

variable (names : ImageNames)

/-- The atom of a cell. -/
def atom (cell : ℕ) : Option Atom :=
  if cell < literalBase then some (.entity ⟨cell⟩)
  else names.literals[cell - literalBase]?.map fun value => .literal ⟨value⟩

/-- The fact of three cells. -/
def fact (subject predicate object : ℕ) : Option Fact := do
  let subject ← names.atom subject
  let predicate ← names.predicates[predicate]?
  let object ← names.atom object
  pure ⟨subject, ⟨predicate⟩, object⟩

/-- The arena behind the chains of an image. -/
def node (records : List MappedRecord) (i : ℕ) : Option (Fact × Option ℕ) :=
  records[i]?.bind fun r => (names.fact r.subject r.predicate r.object).map fun f => (f, r.previous)

/-- Every record names a slot below `count`, and a predecessor before itself. -/
def Valid (count : ℕ) (records : List MappedRecord) : Prop :=
  ∀ (i : ℕ) (r : MappedRecord), records[i]? = some r →
    r.slot < count ∧ ∀ p, r.previous = some p → p < i

variable {names}

theorem atom_of_atomCell {a : Atom} {cell : ℕ} (h : names.atomCell a = .ok cell) :
    names.atom cell = some a := by
  unfold atomCell at h
  cases a with
  | entity e =>
    simp only at h
    split at h
    · rename_i hlt
      obtain rfl := Except.ok.inj h
      exact if_pos hlt
    · cases h
  | literal l =>
    simp only at h
    split at h
    · rename_i token ht
      obtain rfl := Except.ok.inj h
      obtain ⟨hlt, hget, -⟩ := List.idxOf?_eq_some_iff.1 ht
      unfold atom
      rw [if_neg (by omega), Nat.add_sub_cancel_left, List.getElem?_eq_getElem hlt]
      have hget' : names.literals[token] = l.value := by simpa using hget
      rw [hget']
      rfl
    · cases h

theorem get_of_predicateToken {p : Predicate} {token : ℕ} (h : names.predicateToken p = .ok token) :
    names.predicates[token]? = some p.value := by
  unfold predicateToken at h
  split at h
  · rename_i t ht
    obtain rfl := Except.ok.inj h
    obtain ⟨hlt, hget, -⟩ := List.idxOf?_eq_some_iff.1 ht
    rw [List.getElem?_eq_getElem hlt]
    simpa using hget
  · cases h

/-- **A record** reads as the definition it was made from. -/
theorem record_spec {slot : ℕ} {previous : Option ℕ} {entry : ProjectedFact} {r : MappedRecord}
    (h : names.record slot previous entry = .ok r) :
    r.originalId = entry.recordId ∧ r.slot = slot ∧ r.previous = previous ∧
      names.fact r.subject r.predicate r.object = some entry.fact := by
  unfold record at h
  simp only [bind, Except.bind, pure, Except.pure] at h
  split at h
  · cases h
  rename_i subject hs
  split at h
  · cases h
  rename_i predicate hp
  split at h
  · cases h
  rename_i object ho
  obtain rfl := Except.ok.inj h
  refine ⟨rfl, rfl, rfl, ?_⟩
  simp [fact, atom_of_atomCell hs, get_of_predicateToken hp, atom_of_atomCell ho]

/-- The arena behind the chains of an image, with the values that its records stand for. -/
def valueNode {φ : Type} (value : MappedRecord → Option φ) (records : List MappedRecord) (i : ℕ) :
    Option (φ × Option ℕ) :=
  records[i]?.bind fun r => (value r).map fun f => (f, r.previous)

theorem valueNode_append {φ : Type} {value : MappedRecord → Option φ} {records : List MappedRecord}
    (more : List MappedRecord) (i : ℕ) (x : φ × Option ℕ) (h : valueNode value records i = some x) :
    valueNode value (records ++ more) i = some x := by
  unfold valueNode at h ⊢
  rcases lt_or_ge i records.length with hi | hi
  · rwa [List.getElem?_append_left hi]
  · rw [List.getElem?_eq_none hi] at h; cases h

theorem Valid.snoc {count : ℕ} {records : List MappedRecord} (h : Valid count records)
    {r : MappedRecord} (hs : r.slot < count) (hp : ∀ p, r.previous = some p → p < records.length) :
    Valid count (records ++ [r]) := by
  intro i q hq
  rcases lt_trichotomy i records.length with hi | hi | hi
  · rw [List.getElem?_append_left hi] at hq
    exact h i q hq
  · subst hi
    rw [List.getElem?_concat_length, Option.some.injEq] at hq
    subst hq
    exact ⟨hs, hp⟩
  · rw [List.getElem?_eq_none (by simp; omega)] at hq
    cases hq

theorem Valid.mono {count count' : ℕ} {records : List MappedRecord} (h : Valid count records)
    (hc : count ≤ count') : Valid count' records :=
  fun i r hr => ⟨lt_of_lt_of_le (h i r hr).1 hc, (h i r hr).2⟩

section Values

variable {φ : Type} {value : MappedRecord → Option φ} {g : ProjectedFact → φ}

/-- **One stack** is linked behind what was written before. -/
theorem stack_spec (count : ℕ) {slot : ℕ} (hslot : slot < count) {es : List ProjectedFact}
    {rs rs' : List MappedRecord} {previous head : Option ℕ} {fs : List φ}
    (hval : ∀ e ∈ es, ∀ prev r, names.record slot prev e = .ok r → value r = some (g e))
    (h : names.stack slot (rs, previous) es = .ok (rs', head))
    (hc : Chain (valueNode value rs) previous fs) (hp : ∀ p, previous = some p → p < rs.length)
    (hv : Valid count rs) :
    Chain (valueNode value rs') head ((es.map g).reverse ++ fs) ∧ Valid count rs' ∧
      (∃ more, rs' = rs ++ more ∧ more.length = es.length ∧
        ∀ r ∈ more, ∃ e ∈ es, value r = some (g e)) := by
  induction es generalizing rs previous fs with
  | nil =>
    cases h
    exact ⟨hc, hv, [], by simp, rfl, by simp⟩
  | cons e es ih =>
    unfold stack at h
    cases hr : names.record slot previous e with
    | error e' => simp only [hr] at h; cases h
    | ok r =>
      simp only [hr] at h
      obtain ⟨-, h1, h2, -⟩ := record_spec hr
      have h3 : value r = some (g e) := hval e (by simp) previous r hr
      have hnode : valueNode value (rs ++ [r]) rs.length = some (g e, previous) := by
        unfold valueNode
        simp [h3, h2]
      have hchain : Chain (valueNode value (rs ++ [r])) (some rs.length) (g e :: fs) :=
        Chain.cons hnode (hc.mono fun i x hx => valueNode_append [r] i x hx)
      obtain ⟨hc', hv', more, hmore, hlen, hmade⟩ := ih
        (fun e' he' => hval e' (List.mem_cons_of_mem _ he')) h hchain
        (by intro p hp'; cases hp'; simp) (hv.snoc (by omega) (by rw [h2]; exact hp))
      refine ⟨?_, hv', r :: more, by simp [hmore], by simp [hlen], ?_⟩
      · simpa using hc'
      · intro q hq
        rcases List.mem_cons.1 hq with rfl | hq
        · exact ⟨e, by simp, h3⟩
        · obtain ⟨e', he', hvalue⟩ := hmade q hq
          exact ⟨e', List.mem_cons_of_mem _ he', hvalue⟩

/-- The heads link the stacks of the slots written so far. -/
structure Written (value : MappedRecord → Option φ) (rs : List MappedRecord) (hs : List (Option ℕ))
    (slots : List String) (m : StackMap SlotId φ) : Prop where
  length : hs.length = slots.length
  chain : ∀ (i : ℕ) slot, slots[i]? = some slot →
    Chain (valueNode value rs) hs[i]?.join (m.stack ⟨slot⟩)
  valid : Valid slots.length rs
  le : slots.length ≤ rs.length
  made : ∀ r ∈ rs, ∃ slot, ∃ f ∈ m.stack slot, value r = some f

/-- **The stacks of the slots** are linked one behind the other. -/
theorem slotStacks_spec {definitions : Definitions} {m : StackMap SlotId φ}
    (hd : ∀ slot, ((definitions.lookup slot).getD []).map g = (m.stack slot).reverse)
    {todo : List String} (done : List String) (hne : ∀ slot ∈ todo, m.stack ⟨slot⟩ ≠ [])
    (hval : ∀ (t : ℕ) slot, (done ++ todo)[t]? = some slot →
      ∀ e ∈ (definitions.lookup ⟨slot⟩).getD [], ∀ prev r, names.record t prev e = .ok r →
        value r = some (g e))
    {rs rs' : List MappedRecord} {hs hs' : List (Option ℕ)} (hw : Written value rs hs done m)
    (h : names.slotStacks definitions (rs, hs) todo = .ok (rs', hs')) :
    Written value rs' hs' (done ++ todo) m := by
  induction todo generalizing done rs hs with
  | nil =>
    cases h
    rwa [List.append_nil]
  | cons slot todo ih =>
    unfold slotStacks at h
    cases hst : names.stack hs.length (rs, none) ((definitions.lookup ⟨slot⟩).getD []) with
    | error e => simp only [hst] at h; cases h
    | ok q =>
      obtain ⟨rs₁, head⟩ := q
      simp only [hst] at h
      have hvalSlot : ∀ e ∈ (definitions.lookup ⟨slot⟩).getD [], ∀ prev r,
          names.record hs.length prev e = .ok r → value r = some (g e) :=
        hval hs.length slot (by rw [hw.length]; simp)
      obtain ⟨hc, hv, more, hmore, hlen, hmade⟩ := stack_spec (done.length + 1)
        (by rw [hw.length]; omega) hvalSlot hst .nil (by simp) (hw.valid.mono (Nat.le_succ _))
      rw [List.append_nil, hd, List.reverse_reverse] at hc
      have hmorelen : 0 < more.length := by
        have h1 := congrArg List.length (hd ⟨slot⟩)
        rw [List.length_map, List.length_reverse] at h1
        have h2 := List.length_pos_iff.2 (hne slot (by simp))
        omega
      have hw₁ : Written value rs₁ (hs ++ [head]) (done ++ [slot]) m := by
        refine ⟨by simp [hw.length], ?_, by simpa using hv, ?_, ?_⟩
        · intro i name hname
          rcases lt_trichotomy i done.length with hi | hi | hi
          · rw [List.getElem?_append_left hi] at hname
            rw [List.getElem?_append_left (by rw [hw.length]; exact hi), hmore]
            exact (hw.chain i name hname).mono fun j x hx => valueNode_append more j x hx
          · subst hi
            rw [List.getElem?_concat_length, Option.some.injEq] at hname
            subst hname
            rw [← hw.length, List.getElem?_concat_length]
            exact hc
          · rw [List.getElem?_eq_none (by simp; omega)] at hname
            cases hname
        · have := hw.le
          rw [hmore, List.length_append, List.length_append, List.length_singleton]
          omega
        · intro r hr
          rw [hmore] at hr
          rcases List.mem_append.1 hr with hr | hr
          · exact hw.made r hr
          · obtain ⟨e, he, hvalue⟩ := hmade r hr
            refine ⟨⟨slot⟩, g e, ?_, hvalue⟩
            rw [← List.mem_reverse, ← hd]
            exact List.mem_map.2 ⟨e, he, rfl⟩
      have := ih (done ++ [slot]) (fun name hn => hne name (List.mem_cons_of_mem _ hn))
        (by rwa [List.append_assoc]) hw₁ h
      rwa [List.append_assoc] at this

end Values

end ImageNames

/-! ## The history -/

theorem encodeImageString_ok {text : String} {bytes : List UInt8}
    (h : encodeImageString text = .ok bytes) : TextFits 4 text ∧ bytes = putString 4 text := by
  unfold encodeImageString at h
  split at h
  · rename_i hlt
    exact ⟨hlt, (Except.ok.inj h).symm⟩
  · cases h

theorem encodeImageAtom_ok {a : Atom} (ha : a.Fits 8) {bytes : List UInt8}
    (h : encodeImageAtom a = .ok bytes) : a.Fits 4 ∧ bytes = putAtom 4 a := by
  cases a with
  | entity e => exact ⟨ha, (Except.ok.inj h).symm⟩
  | literal l =>
    simp only [encodeImageAtom] at h
    cases ht : encodeImageString l.value with
    | error e => rw [ht] at h; cases h
    | ok text =>
      rw [ht] at h
      obtain ⟨hfit, rfl⟩ := encodeImageString_ok ht
      exact ⟨hfit, (Except.ok.inj h).symm⟩

/-- **An encoded operation** fits the narrow length fields. -/
theorem encodeImageOperation_ok {op : Operation} (hop : op.Fits 8) {bytes : List UInt8}
    (h : encodeImageOperation op = .ok bytes) : op.Fits 4 ∧ bytes = putOperation 4 op := by
  cases op with
  | allocateEntity e => exact ⟨hop, (Except.ok.inj h).symm⟩
  | define slot fact =>
    obtain ⟨-, hs, -, ho⟩ := hop
    unfold encodeImageOperation at h
    simp only [bind, Except.bind, pure, Except.pure] at h
    split at h
    · cases h
    rename_i slotBytes h1
    split at h
    · cases h
    rename_i subject h2
    split at h
    · cases h
    rename_i predicate h3
    split at h
    · cases h
    rename_i object h4
    obtain ⟨hf1, rfl⟩ := encodeImageString_ok h1
    obtain ⟨hf2, rfl⟩ := encodeImageAtom_ok hs h2
    obtain ⟨hf3, rfl⟩ := encodeImageString_ok h3
    obtain ⟨hf4, rfl⟩ := encodeImageAtom_ok ho h4
    exact ⟨⟨hf1, hf2, hf3, hf4⟩, (Except.ok.inj h).symm⟩
  | forget slot =>
    simp only [encodeImageOperation] at h
    cases ht : encodeImageString slot.value with
    | error e => rw [ht] at h; cases h
    | ok text =>
      rw [ht] at h
      obtain ⟨hfit, rfl⟩ := encodeImageString_ok ht
      exact ⟨hfit, (Except.ok.inj h).symm⟩

/-- What is encoded one behind the other is read one after the other. -/
theorem reads_encodeEach {α : Type} {encode : α → Except String (List UInt8)} {d : Decoder α} :
    ∀ {as : List α} {bytes : List UInt8}, encodeEach encode as = .ok bytes →
      (∀ a ∈ as, ∀ bs, encode a = .ok bs → Decode.Reads d bs a) →
      Decode.Reads (times as.length d) bytes as := by
  intro as
  induction as with
  | nil =>
    intro bytes h _
    obtain rfl := Except.ok.inj h
    exact reads_pure []
  | cons a as ih =>
    intro bytes h hd
    unfold encodeEach at h
    simp only [bind, Except.bind, pure, Except.pure] at h
    split at h
    · cases h
    rename_i front h1
    split at h
    · cases h
    rename_i rest h2
    obtain rfl := Except.ok.inj h
    exact (hd a (by simp) front h1).bind
      ((ih h2 fun b hb => hd b (List.mem_cons_of_mem _ hb)).bind_pure (a :: ·))

/-- What is encoded one behind the other is as long as its parts are heavy. -/
theorem sum_le_encodeEach {α : Type} {encode : α → Except String (List UInt8)} (weight : α → ℕ)
    (hweight : ∀ a bs, encode a = .ok bs → weight a ≤ bs.length) :
    ∀ {as : List α} {bytes : List UInt8}, encodeEach encode as = .ok bytes →
      (as.map weight).sum ≤ bytes.length := by
  intro as
  induction as with
  | nil => intro bytes _; exact Nat.zero_le _
  | cons a as ih =>
    intro bytes h
    unfold encodeEach at h
    simp only [bind, Except.bind, pure, Except.pure] at h
    split at h
    · cases h
    rename_i front h1
    split at h
    · cases h
    rename_i rest h2
    obtain rfl := Except.ok.inj h
    have := hweight a front h1
    have := ih h2
    simp only [List.length_append, List.map_cons, List.sum_cons]
    omega

theorem length_le_encodeEach {α : Type} {encode : α → Except String (List UInt8)}
    (hpos : ∀ a bs, encode a = .ok bs → 0 < bs.length) {as : List α} {bytes : List UInt8}
    (h : encodeEach encode as = .ok bytes) : as.length ≤ bytes.length := by
  have hsum := sum_le_encodeEach (fun _ => 1) hpos h
  simpa using hsum

theorem reads_historyFrame {frame : CommitFrame} (hf : frame.InRange) {bytes : List UInt8}
    (h : encodeImageFrame frame = .ok bytes) : Decode.Reads readHistoryFrame bytes frame := by
  obtain ⟨h1, h2, h3, -, h5⟩ := hf
  unfold encodeImageFrame at h
  split at h
  swap
  · cases h
  rename_i hlen
  simp only [bind, Except.bind, pure, Except.pure] at h
  split at h
  · cases h
  rename_i operations hops
  have hw : ∀ id : WorldId,
      Decode.Reads (number historyWording.eof 8) (le 8 id.value.toNat) id.value.toNat :=
    fun id => reads_u64 id.value.toNat_lt
  have hread := reads_encodeEach (d := readOperation historyWording 4) hops fun op hop bs hbs => by
    obtain ⟨hfit, rfl⟩ := encodeImageOperation_ok (h5 op hop) hbs
    exact reads_operation hfit
  have key : Decode.Reads readHistoryFrame bytes ⟨⟨.ofNat frame.parentWorld.value.toNat⟩,
      ⟨.ofNat frame.resultingWorld.value.toNat⟩, frame.parentVersion, frame.resultingVersion,
      frame.resultingAllocator, frame.operations⟩ := by
    rw [← Except.ok.inj h]
    refine (hw _).bind ((hw _).bind ?_)
    refine (reads_u64 h1).bind ((reads_u64 h2).bind ((reads_u64 h3).bind ((reads_u32 hlen).bind ?_)))
    exact hread.bind_pure _
  simpa only [UInt64.ofNat_toNat] using key

/-- **The encoded history is read back.** -/
theorem decodeFrames_encodeFrames {frames : List CommitFrame} (hf : ∀ f ∈ frames, f.InRange)
    (hlen : frames.length < 2 ^ 64) {bytes : List UInt8} (h : encodeFrames frames = .ok bytes) :
    decodeFrames bytes = .ok frames := by
  unfold encodeFrames at h
  cases he : encodeEach encodeImageFrame frames with
  | error e => rw [he] at h; cases h
  | ok rest =>
    rw [he] at h
    obtain rfl := Except.ok.inj h
    refine decodeAll_of_reads ?_
    exact (reads_u64 hlen).bind
      (reads_encodeEach he fun f hfm bs hbs => reads_historyFrame (hf f hfm) hbs)

theorem length_encodeImageOperation_pos {op : Operation} {bytes : List UInt8}
    (h : encodeImageOperation op = .ok bytes) : 0 < bytes.length := by
  cases op with
  | allocateEntity e =>
    obtain rfl := Except.ok.inj h
    simp
  | define slot fact =>
    unfold encodeImageOperation at h
    simp only [bind, Except.bind, pure, Except.pure] at h
    split at h
    · cases h
    split at h
    · cases h
    split at h
    · cases h
    split at h
    · cases h
    obtain rfl := Except.ok.inj h
    simp
  | forget slot =>
    simp only [encodeImageOperation] at h
    cases ht : encodeImageString slot.value with
    | error e => rw [ht] at h; cases h
    | ok text =>
      rw [ht] at h
      obtain rfl := Except.ok.inj h
      simp

/-- An encoded frame is longer than it has operations. -/
theorem length_encodeImageFrame {frame : CommitFrame} {bytes : List UInt8}
    (h : encodeImageFrame frame = .ok bytes) : frame.operations.length < bytes.length := by
  unfold encodeImageFrame at h
  split at h
  swap
  · cases h
  simp only [bind, Except.bind, pure, Except.pure] at h
  split at h
  · cases h
  rename_i operations hops
  obtain rfl := Except.ok.inj h
  have hle := length_le_encodeEach (fun _ _ => length_encodeImageOperation_pos) hops
  simp only [List.length_append, length_le]
  omega

/-- **An encoded history** is at least as long as it has frames, and operations. -/
theorem length_le_encodeFrames {frames : List CommitFrame} {bytes : List UInt8}
    (h : encodeFrames frames = .ok bytes) :
    frames.length ≤ bytes.length ∧ (operationsOf frames).length ≤ bytes.length := by
  unfold encodeFrames at h
  cases he : encodeEach encodeImageFrame frames with
  | error e => rw [he] at h; cases h
  | ok rest =>
    rw [he] at h
    obtain rfl := Except.ok.inj h
    have hframes := length_le_encodeEach
      (fun f bs hbs => Nat.zero_lt_of_lt (length_encodeImageFrame hbs)) he
    have hoperations := sum_le_encodeEach (fun f => f.operations.length)
      (fun f bs hbs => (length_encodeImageFrame hbs).le) he
    rw [List.length_append, operationsOf, List.length_flatMap]
    omega

/-! ## Sizes -/

theorem sum_le_length_layoutSections (sections : List (List UInt8)) (offset : ℕ) :
    (sections.map List.length).sum ≤ (layoutSections offset sections).2.length := by
  induction sections generalizing offset with
  | nil => exact le_rfl
  | cons bytes rest ih =>
    have := ih (offset + (8 - offset % 8) % 8 + bytes.length)
    simp only [layoutSections, List.map_cons, List.sum_cons, List.length_append,
      List.length_replicate]
    omega

theorem length_flatMap_const {α : Type} {f : α → List UInt8} {n : ℕ} (h : ∀ a, (f a).length = n)
    (as : List α) : (as.flatMap f).length = n * as.length := by
  induction as with
  | nil => rfl
  | cons a as ih => simp [h, ih, Nat.mul_succ, Nat.add_comm]

theorem MappedRecord.length_toBytes (r : MappedRecord) : r.toBytes.length = 48 := by
  simp [toBytes]

theorem IndexEntry.length_toBytes (e : IndexEntry) : e.toBytes.length = 32 := by simp [toBytes]

theorem length_encodeStringTable (values : List String) :
    values.length ≤ (encodeStringTable values).length := by
  unfold encodeStringTable
  simp only [List.length_append, length_le]
  rw [length_flatMap_const (n := 8) (fun _ => length_le 8 _), List.length_scanl]
  omega

namespace MmapVmSnapshot

/-- Every section is shorter than the file. -/
theorem length_section_le {s : MmapVmSnapshot} {bytes : List UInt8} (h : bytes ∈ s.sections)
    (journal : List UInt8) : bytes.length ≤ (s.toFile journal).length := by
  have h1 := sum_le_length_layoutSections s.sections imageHeaderLength
  have h2 : bytes.length ≤ (s.sections.map List.length).sum :=
    List.single_le_sum (fun _ _ => Nat.zero_le _) _ (List.mem_map_of_mem h)
  unfold toFile body
  simp only [List.length_append]
  omega

/-- The name tables of an image. -/
def tables (s : MmapVmSnapshot) : ImageNames := ⟨s.slots, s.predicates, s.literals⟩

/-- The newest record of a slot. -/
def headOf (s : MmapVmSnapshot) (slot : SlotId) : Option ℕ :=
  (s.slotToken slot).bind fun token => s.heads[token]?.join

/-- The records of an image link exactly the stacks of `m`. -/
structure Links (s : MmapVmSnapshot) (m : SlotStacks) : Prop where
  names : s.NamesSorted
  heads : s.heads.length = s.slots.length
  linked : Linked (s.tables.node s.records) s.headOf m
  valid : ImageNames.Valid s.slots.length s.records
  slots_le : s.slots.length ≤ s.records.length
  records_le : s.records.length ≤ noReference
  literals_le : s.literals.length ≤ 2 ^ 32

theorem pairwise_insertionSort_lt {names : List String} (h : names.Nodup) :
    (names.insertionSort (· ≤ ·)).Pairwise (· < ·) := by
  have h1 : (names.insertionSort (· ≤ ·)).Pairwise (· ≤ ·) := List.pairwise_insertionSort _ _
  have h2 : (names.insertionSort (· ≤ ·)).Nodup := (List.perm_insertionSort _ names).nodup_iff.2 h
  exact (h1.and h2).imp fun h => lt_of_le_of_ne h.1 h.2

/-- What `create` has put together. -/
theorem create_ok {journal : List UInt8} {n : ℕ} {w : World} {p : VmQueryProjection}
    {s : MmapVmSnapshot} (h : create journal n w p = .ok s) :
    p.mapped = none ∧ (s.toFile journal).length ≤ maxSnapshotBytes ∧
      ∃ records heads frames history,
        p.names.slotStacks p.definitions ([], []) p.names.slots = .ok (records, heads) ∧
        w.frames = .ok frames ∧ encodeFrames frames = .ok history ∧
        s = ofParts journal n w p.names records heads frames history := by
  unfold create at h
  split at h
  · cases h
  rename_i hm
  simp only [bind, Except.bind, pure, Except.pure] at h
  split at h
  · cases h
  rename_i q hq
  split at h
  · cases h
  rename_i frames hf
  split at h
  · cases h
  rename_i history hh
  split at h
  · cases h
  rename_i hsize
  obtain rfl := Except.ok.inj h
  exact ⟨by simpa using hm, not_lt.1 hsize, q.1, q.2, frames, history, hq, hf, hh, rfl⟩

theorem names_slots_sorted (p : VmQueryProjection) : p.names.slots.Pairwise (· < ·) := by
  refine pairwise_insertionSort_lt ?_
  exact p.definitions.keys_nodup.map fun a b hab => by
    cases a; cases b; exact congrArg SlotId.mk hab

theorem mem_names_slots (p : VmQueryProjection) (slot : String) :
    slot ∈ p.names.slots ↔ p.definitions.lookup ⟨slot⟩ ≠ none := by
  unfold VmQueryProjection.names
  rw [List.mem_insertionSort, List.mem_map, ← Dict.mem_keys]
  constructor
  · rintro ⟨k, hk, rfl⟩; exact hk
  · intro hk; exact ⟨_, hk, rfl⟩

/-- The stacks of the slots that an image names are not empty. -/
theorem stack_ne_of_mem {φ : Type} {p : VmQueryProjection} {m : StackMap SlotId φ}
    {g : ProjectedFact → φ}
    (hd : ∀ slot, ((p.definitions.lookup slot).getD []).map g = (m.stack slot).reverse)
    (hne : ∀ slot, p.definitions.lookup slot ≠ some []) {slot : String}
    (hslot : slot ∈ p.names.slots) : m.stack ⟨slot⟩ ≠ [] := by
  intro hnil
  have h1 := hd ⟨slot⟩
  have h2 := hne ⟨slot⟩
  rw [mem_names_slots] at hslot
  cases hl : p.definitions.lookup ⟨slot⟩ with
  | none => exact hslot hl
  | some es =>
    simp only [hl] at h1 h2
    rw [hnil] at h1
    have : es = [] := by simpa using h1
    exact h2 (by rw [this])

section Values

variable {φ : Type} {value : MappedRecord → Option φ} {g : ProjectedFact → φ}

/-- **The records of a written image** link the stacks that its projection lists, read as
values. -/
theorem create_linked {journal : List UInt8} {n : ℕ} {w : World} {p : VmQueryProjection}
    {s : MmapVmSnapshot} (h : create journal n w p = .ok s) {m : StackMap SlotId φ}
    (hd : ∀ slot, ((p.definitions.lookup slot).getD []).map g = (m.stack slot).reverse)
    (hne : ∀ slot, p.definitions.lookup slot ≠ some [])
    (hval : ∀ (t : ℕ) slot, p.names.slots[t]? = some slot →
      ∀ e ∈ (p.definitions.lookup ⟨slot⟩).getD [], ∀ prev r, p.names.record t prev e = .ok r →
        value r = some (g e)) :
    s.tables = p.names ∧ ImageNames.Written value s.records s.heads s.slots m ∧
      Linked (ImageNames.valueNode value s.records) s.headOf m := by
  obtain ⟨-, -, records, heads, frames, history, hst, -, -, hs⟩ := create_ok h
  have hnames := names_slots_sorted p
  have hw : ImageNames.Written value records heads p.names.slots m := by
    have := ImageNames.slotStacks_spec hd [] (fun slot hslot => stack_ne_of_mem hd hne hslot) hval
      ⟨rfl, by simp, by intro i r hr; simp at hr, le_rfl, by simp⟩ hst
    rwa [List.nil_append] at this
  have hslots : s.slots = p.names.slots := by rw [hs]; rfl
  have hheads : s.heads = heads := by rw [hs]; rfl
  have hrecords : s.records = records := by rw [hs]; rfl
  rw [hslots, hheads, hrecords]
  refine ⟨by rw [hs]; rfl, hw, ?_⟩
  intro slot
  unfold headOf slotToken
  rw [hslots, hheads]
  cases ht : SortedTable.lookup p.names.slots slot.value with
  | some t => exact hw.chain t slot.value ((SortedTable.lookup_iff hnames).1 ht)
  | none =>
    have hnot : slot.value ∉ p.names.slots := by
      intro hin
      obtain ⟨i, hi⟩ := List.getElem?_of_mem hin
      rw [(SortedTable.lookup_iff hnames).2 hi] at ht
      cases ht
    rw [mem_names_slots, not_not] at hnot
    have h1 := hd slot
    rw [show p.definitions.lookup slot = none from hnot] at h1
    have hnil : m.stack slot = [] := by simpa using h1.symm
    rw [hnil]
    exact Chain.nil

end Values

/-- The name tables of a written image are strictly sorted. -/
theorem create_names {journal : List UInt8} {n : ℕ} {w : World} {p : VmQueryProjection}
    {s : MmapVmSnapshot} (h : create journal n w p = .ok s) : s.NamesSorted := by
  obtain ⟨-, -, records, heads, frames, history, -, -, -, hs⟩ := create_ok h
  refine ⟨?_, ?_, ?_⟩
  · rw [hs]; exact names_slots_sorted p
  · rw [hs]; exact pairwise_insertionSort_lt (List.nodup_dedup _)
  · rw [hs]; exact pairwise_insertionSort_lt (List.nodup_dedup _)

/-- **A written image links the stacks of its world.** -/
theorem create_links {journal : List UInt8} {n : ℕ} {w : World} {p : VmQueryProjection}
    {s : MmapVmSnapshot} (h : create journal n w p = .ok s) {m : SlotStacks}
    (hp : VmQueryProjection.Projects p.definitions m) : s.Links m := by
  have hval : ∀ (t : ℕ) slot, p.names.slots[t]? = some slot →
      ∀ e ∈ (p.definitions.lookup ⟨slot⟩).getD [], ∀ prev r, p.names.record t prev e = .ok r →
        p.names.fact r.subject r.predicate r.object = some e.fact :=
    fun t slot _ e _ prev r hr => (ImageNames.record_spec hr).2.2.2
  obtain ⟨htables, hw, hlinked⟩ := create_linked
    (g := ProjectedFact.fact) h hp.stack hp.nonempty hval
  obtain ⟨-, hsize, -⟩ := create_ok h
  have hbytes : ∀ bytes ∈ s.sections, bytes.length ≤ 2 ^ 29 := fun bytes hb =>
    (length_section_le hb journal).trans (hsize.trans (by decide))
  refine ⟨create_names h, hw.length, ?_, hw.valid, hw.le, ?_, ?_⟩
  · rw [htables]; exact hlinked
  · have := hbytes (s.records.flatMap MappedRecord.toBytes) (by simp [sections])
    rw [length_flatMap_const MappedRecord.length_toBytes] at this
    unfold noReference
    omega
  · have := hbytes (encodeStringTable s.literals) (by simp [sections])
    have := length_encodeStringTable s.literals
    omega

/-- **A written image carries the history of its world.** -/
theorem create_frames {journal : List UInt8} {n : ℕ} {w : World} {p : VmQueryProjection}
    {s : MmapVmSnapshot} (h : create journal n w p = .ok s) {fs : List CommitFrame}
    (hfs : w.frames = .ok fs) (hr : ∀ f ∈ fs, f.InRange) : s.frames = .ok fs := by
  obtain ⟨-, hsize, records, heads, frames, history, hst, hf, hh, hs⟩ := create_ok h
  rw [hfs] at hf
  obtain rfl : fs = frames := Except.ok.inj hf
  have hhist : s.history = history := by rw [hs]; rfl
  have h1 := (length_section_le (show s.history ∈ s.sections by simp [sections]) journal).trans hsize
  have h2 := (length_le_encodeFrames hh).1
  have h3 : maxSnapshotBytes < 2 ^ 64 := by decide
  unfold frames
  rw [hhist] at h1 ⊢
  rw [decodeFrames_encodeFrames hr (by omega) hh]
  rfl

/-! ## The materializer of an image -/

variable {s : MmapVmSnapshot} {m : SlotStacks}

theorem getElem?_workspaceImage (s : MmapVmSnapshot) (i : ℕ) :
    s.workspaceImage.1[i]? = s.records[i]?.map fun record => {
      kind := .define
      slot := record.slot
      subject := record.subject
      predicate := record.predicate
      object := record.object
      previousVisible := record.previous
      resultingVisible := some i } := by
  unfold workspaceImage
  simp only [List.getElem?_map, List.getElem?_zipIdx, Option.map_map, Nat.zero_add]
  rfl

@[simp] theorem length_workspaceImage (s : MmapVmSnapshot) :
    s.workspaceImage.1.length = s.records.length := by simp [workspaceImage]

/-- A head of a linked image is one of its records. -/
theorem Links.head_lt (h : s.Links m) {t i : ℕ} (hh : s.heads[t]?.join = some i) :
    i < s.records.length ∧ ∃ slot, s.slotToken slot = some t := by
  have ht : t < s.slots.length := by
    rw [← h.heads]
    by_contra hge
    rw [List.getElem?_eq_none (not_lt.1 hge)] at hh
    cases hh
  have htok : s.slotToken ⟨s.slots[t]⟩ = some t :=
    (SortedTable.lookup_iff h.names.slots).2 (List.getElem?_eq_getElem ht)
  have hc : Chain _ (s.headOf ⟨s.slots[t]⟩) _ := h.linked ⟨s.slots[t]⟩
  unfold headOf at hc
  rw [htok, Option.bind_some, hh] at hc
  cases hc' : m.stack ⟨s.slots[t]⟩ with
  | nil => rw [hc'] at hc; cases hc
  | cons f fs =>
    rw [hc'] at hc
    cases hc with
    | cons hn _ =>
      refine ⟨?_, _, htok⟩
      unfold ImageNames.node at hn
      by_contra hge
      rw [List.getElem?_eq_none (not_lt.1 hge)] at hn
      cases hn

/-- The workspace that a linked image is loaded into. -/
def workspace (s : MmapVmSnapshot) : Workspace where
  stack := List.replicate 32 0
  stackPointer := 0
  frameBase := 0
  records := s.workspaceImage.1
  deltas := []
  indexDeltas := []
  acceptedHeads := s.heads
  nextEntity := s.nextEntity
  semanticHash := s.workspaceImage.1.foldl hashRecord Fnv.offsetBasis
  trackIndexes := true
  historicalDeltaOffset := s.recordCount

/-- **A linked image is loaded**, unless it counts fewer records than it retains. -/
theorem Links.fromPhysicalSnapshot_eq (h : s.Links m) :
    Workspace.fromPhysicalSnapshot s.nextEntity s.workspaceImage.1 s.heads s.recordCount =
      if s.recordCount < s.records.length then
        .error "snapshot retained records exceed total record count"
      else .ok s.workspace := by
  have hfind : (s.workspaceImage.1.zipIdx.find? fun e =>
      ¬ Workspace.PhysicalRecord s.heads.length e.2 e.1) = none := by
    rw [List.find?_eq_none]
    rintro ⟨r, i⟩ hr
    rw [List.mem_zipIdx_iff_getElem?, getElem?_workspaceImage] at hr
    simp only [Option.map_eq_some_iff] at hr
    obtain ⟨q, hq, rfl⟩ := hr
    obtain ⟨hslot, hprev⟩ := h.valid i q hq
    simp only [decide_not, Bool.not_eq_true', decide_eq_false_iff_not, not_not]
    exact ⟨rfl, rfl, hprev, by rw [h.heads]; exact hslot⟩
  have hany : (s.heads.any fun head => head.any fun i => i ≥ s.workspaceImage.1.length) = false := by
    rw [List.any_eq_false]
    intro head hhead
    cases head with
    | none => simp
    | some i =>
      obtain ⟨t, ht⟩ := List.getElem?_of_mem hhead
      have := (h.head_lt (t := t) (i := i) (by rw [ht]; rfl)).1
      simp only [length_workspaceImage, Option.any_some, ge_iff_le, decide_eq_true_eq, not_le]
      exact this
  unfold Workspace.fromPhysicalSnapshot
  rw [length_workspaceImage, hfind]
  simp only [length_workspaceImage] at hany
  simp only [hany]
  rfl

/-- The materializer that a linked image is loaded into. -/
def materializer (s : MmapVmSnapshot) : VmEpochMaterializer where
  workspace := s.workspace
  version := 0
  mappedBase := some s
  slots := ∅
  predicates := ∅
  predicateValues := []
  literals := ∅
  literalValues := []

theorem Links.fromMmap_eq (h : s.Links m) :
    VmEpochMaterializer.fromMmap s =
      if s.recordCount < s.records.length then
        .error "snapshot retained records exceed total record count"
      else .ok s.materializer := by
  unfold VmEpochMaterializer.fromMmap
  have hw := h.fromPhysicalSnapshot_eq
  have hheads : s.workspaceImage.2 = s.heads := rfl
  simp only [bind, Except.bind]
  rw [hheads, hw]
  by_cases hc : s.recordCount < s.records.length
  · rw [if_pos hc, if_pos hc]
  · rw [if_neg hc, if_neg hc]
    rfl

theorem atomFromCell_materializer (s : MmapVmSnapshot) (c : ℕ) :
    s.materializer.atomFromCell c = s.tables.atom c := by
  unfold VmEpochMaterializer.atomFromCell ImageNames.atom
  split
  · rfl
  · simp only [materializer, literalValue, tables]
    by_cases hlt : c - literalBase < s.literalCount
    · rw [if_pos hlt, Option.map_map]; rfl
    · rw [if_neg hlt, List.getElem?_eq_none (not_lt.1 hlt)]
      rfl

theorem predicateFromCell_materializer (s : MmapVmSnapshot) (c : ℕ) :
    s.materializer.predicateFromCell c = s.predicates[c]?.map Predicate.mk := by
  unfold VmEpochMaterializer.predicateFromCell
  simp only [materializer, predicateValue]
  by_cases hlt : c < s.predicateCount
  · rw [if_pos hlt]
  · rw [if_neg hlt, List.getElem?_eq_none (not_lt.1 hlt)]
    rfl

theorem factFromCells_materializer (s : MmapVmSnapshot) (x y z : ℕ) :
    s.materializer.factFromCells x y z = s.tables.fact x y z := by
  unfold VmEpochMaterializer.factFromCells ImageNames.fact
  simp only [atomFromCell_materializer, predicateFromCell_materializer, tables, bind,
    Option.bind_map]
  rfl

theorem token_materializer (s : MmapVmSnapshot) (h : s.NamesSorted) (slot : SlotId) :
    VmEpochMaterializer.token (.ofImage s h) s.materializer slot = s.slotToken slot := by
  unfold VmEpochMaterializer.token Vocabulary.token
  simp only [materializer, AList.lookup_empty, Option.none_or, Nat.zero_add, Option.map_id_fun',
    id_eq]
  rfl

/-- The records of an image, as its materializer reads them. -/
theorem recordNode_materializer (s : MmapVmSnapshot) (i : ℕ) :
    recordNode s.materializer.factFromCells s.workspaceImage.1 i = s.tables.node s.records i := by
  unfold recordNode ImageNames.node
  rw [getElem?_workspaceImage, Option.bind_map]
  simp only [Function.comp_def, factFromCells_materializer]

/-- **The materializer of a linked image** stands for its stacks. -/
theorem Links.materializer_holds {a : WorldState} (h : s.Links a.slots) (hn : s.nextEntity = a.next)
    (hr : s.recordCount = a.records) : s.materializer.Holds (.ofImage s h.names) [] a := by
  have hhead : ∀ t, s.workspace.trialHead s.workspace.deltas.length t = s.heads[t]?.join :=
    fun t => Workspace.trialHead_rest _ t
  have hcoh : ∀ {κ : Type} [DecidableEq κ] (start : ℕ) (base : FrozenTable κ),
      Vocabulary.Coherent start base (fun k => (∅ : Dict κ ℕ).lookup k) [] :=
    fun start base => Vocabulary.coherent_nil
  have htables : VmEpochMaterializer.Tables (.ofImage s h.names) [] s.materializer := by
    refine ⟨⟨.image s h.names, hcoh _ _, rfl, hcoh _ _, rfl, hcoh _ _⟩, ?_⟩
    show s.slots.length + 0 ≤ s.heads.length
    rw [h.heads, Nat.add_zero]
  refine ⟨htables, ⟨⟨?_, ?_, ?_, ?_, le_rfl, rfl, ?_, ?_, ?_⟩, hn, ?_, rfl, rfl, ?_⟩⟩
  · intro slot
    have hc : Chain _ (s.headOf slot) (a.slots.stack slot) := h.linked slot
    show Chain _ ((VmEpochMaterializer.token _ s.materializer slot).bind
      (s.workspace.trialHead s.workspace.deltas.length)) _
    rw [token_materializer, funext hhead]
    refine hc.mono fun i x hx => ?_
    show recordNode _ s.workspaceImage.1 i = _
    rw [recordNode_materializer]
    exact hx
  · intro k t hk
    exact htables.token_lt hk
  · intro k k' t hk hk'
    exact htables.token_inj hk hk'
  · intro t i hi
    rw [show s.materializer.workspace = s.workspace from rfl, hhead] at hi
    obtain ⟨slot, hslot⟩ := (h.head_lt hi).2
    exact ⟨slot, by rw [token_materializer]; exact hslot⟩
  · exact Nat.zero_le _
  · show s.workspaceImage.1.length ≤ noReference
    rw [length_workspaceImage]
    exact h.records_le
  · exact Nat.zero_le _
  · show s.recordCount + 0 = a.records
    rw [Nat.add_zero, hr]
  · simp [materializer, workspace]

theorem Links.materializer_tight (h : s.Links m) :
    VmEpochMaterializer.Tight (.ofImage s h.names) [] s.materializer := by
  refine ⟨?_, h.literals_le, Nat.zero_le _⟩
  show s.slots.length + 0 ≤ s.workspaceImage.1.length
  rw [length_workspaceImage]
  exact h.slots_le

/-! ## The world of an image -/

theorem atomValue_toOption (s : MmapVmSnapshot) (c : ℕ) :
    (s.atomValue c).toOption = s.tables.atom c := by
  unfold atomValue ImageNames.atom literalValue tables
  split
  · rfl
  · cases s.literals[c - literalBase]? <;> rfl

/-- The fact of a record, as the mapped readers see it. -/
theorem fact_toOption (s : MmapVmSnapshot) (i : ℕ) :
    (s.fact i).toOption = (s.tables.node s.records i).map Prod.fst := by
  unfold fact ImageNames.node
  cases hr : s.records[i]? with
  | none => rfl
  | some r =>
    simp only [Option.bind_some, Option.map_map, ImageNames.fact]
    rw [← atomValue_toOption, ← atomValue_toOption]
    unfold predicateValue
    cases s.atomValue r.subject with
    | error e => rfl
    | ok subject =>
      cases hp : s.predicates[r.predicate]? with
      | none => simp [hp, tables, bind, Except.bind, Except.toOption]
      | some predicate =>
        cases s.atomValue r.object with
        | error e => simp [hp, tables, bind, Except.bind, pure, Except.pure, Except.toOption]
        | ok object => simp [hp, tables, bind, Except.bind, pure, Except.pure, Except.toOption]

/-- **The mapped readers** see the tops of the stacks. -/
theorem Links.resolve_eq (h : s.Links m) (slot : SlotId) : s.resolve slot = m.top slot := by
  rw [h.linked.top_eq slot]
  unfold resolve headOf
  simp only [bind, Option.bind_assoc]
  cases s.slotToken slot with
  | none => rfl
  | some t =>
    simp only [Option.bind_some]
    cases s.heads[t]? with
    | none => rfl
    | some head =>
      cases head with
      | none => rfl
      | some i => exact fact_toOption s i

/-- **The world of a written image** replays the history of the world it was written from. -/
theorem fromMmap_replays {a : WorldState} {w : World} {fs : List CommitFrame}
    (h : s.Links a.slots) (hf : s.frames = .ok fs) (hw : w.Replays fs a) (hid : s.worldId = w.id)
    (hv : s.worldVersion = w.version) (hn : s.nextEntity = w.nextEntity)
    (ho : s.operationCount = w.operationCount) : (World.fromMmap s).Replays fs a := by
  refine ⟨?_, ?_, hn.trans hw.next, ho.trans hw.operationCount, ?_, ?_⟩
  · unfold World.frames World.fromMmap
    simp [hf, Except.map]
  · have := hw.chained
    rw [← hid, ← hv] at this
    exact this
  · obtain ⟨k, hk, hs⟩ := World.replay_kernel hw.chained
    have hnext : (World.fromMmap s).nextEntity = a.next := hn.trans hw.next
    refine ⟨k, ?_, by rw [hnext]; exact hs⟩
    unfold World.kernel World.frames World.fromMmap
    simp only [hf, Except.map, List.append_nil, bind, Except.bind]
    rw [hk]
  · intro slot
    unfold World.resolve World.vmQuery World.fromMmap
    simp only [Except.map, VmQueryProjection.fromMmap, VmQueryProjection.resolve]
    rw [h.resolve_eq]

end MmapVmSnapshot

end ForthDB
