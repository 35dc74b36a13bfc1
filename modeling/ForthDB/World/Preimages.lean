import ForthDB.World.OperationCodec

/-!
# What a world id is the hash of

`calculate_world_id` feeds the parent, the version, the allocator and the operations
to a `StableHasher`, byte by byte. The functions below run the feeding over any state
that absorbs bytes: at FNV-1a it is the world id (`feedWorld_fnv`), and at a state that
only records what it absorbs it is the stream itself (`feedWorld_records`).

The stream is read back by one decoder (`reads_preimage`), because every text and the
list of operations say their length first and every variant says its tag. So it
determines what was hashed: `preimage_determines`.
-/

namespace ForthDB

open Bytes Decode

/-- What `calculate_world_id` is given. -/
structure WorldContent where
  parent : WorldId
  resultingVersion : ℕ
  resultingAllocator : ℕ
  operations : List Operation
deriving DecidableEq, Repr

namespace WorldContent

/-- What the source's types promise: `u64` counters and ids, addressable texts and lists. -/
def InRange (c : WorldContent) : Prop :=
  c.resultingVersion < 2 ^ 64 ∧ c.resultingAllocator < 2 ^ 64 ∧ c.operations.length < 2 ^ 64 ∧
    ∀ op ∈ c.operations, op.Fits 8

instance : DecidablePred InRange := fun _ => inferInstanceAs (Decidable (_ ∧ _))

/-- The world id of the content. -/
def worldId (c : WorldContent) : WorldId :=
  calculateWorldId c.parent c.resultingVersion c.resultingAllocator c.operations

/-- The bytes that `calculate_world_id` hashes, in their order. -/
def preimage (c : WorldContent) : List UInt8 :=
  le 8 c.parent.value.toNat ++ le 8 c.resultingVersion ++ le 8 c.resultingAllocator ++
    le 8 c.operations.length ++ c.operations.flatMap hashOperation

theorem worldId_eq (c : WorldContent) : c.worldId = ⟨Fnv.fnv1a c.preimage⟩ := rfl

end WorldContent

section Feeding

variable {σ : Type} (byte : σ → UInt8 → σ)

/-- `StableHasher::bytes`. -/
def feedBytes (h : σ) (bytes : List UInt8) : σ := bytes.foldl byte h

/-- `StableHasher::u64`. -/
def feedU64 (h : σ) (value : ℕ) : σ := feedBytes byte h (le 8 value)

/-- `StableHasher::string`. -/
def feedString (h : σ) (value : String) : σ :=
  feedBytes byte (feedU64 byte h (utf8 value).length) (utf8 value)

/-- `hash_atom`. -/
def feedAtom (h : σ) : Atom → σ
  | .entity entity => feedU64 byte (byte h 0) entity.value
  | .literal literal => feedString byte (byte h 1) literal.value

/-- `hash_fact`. -/
def feedFact (h : σ) (fact : Fact) : σ :=
  feedAtom byte (feedString byte (feedAtom byte h fact.subject) fact.predicate.value) fact.object

/-- The body of the loop of `calculate_world_id`. -/
def feedOperation (h : σ) : Operation → σ
  | .allocateEntity entity => feedU64 byte (byte h 0) entity.value
  | .define slot fact => feedFact byte (feedString byte (byte h 1) slot.value) fact
  | .forget slot => feedString byte (byte h 2) slot.value

/-- `calculate_world_id`, from the new hasher to the finished one. -/
def feedWorld (h : σ) (c : WorldContent) : σ :=
  let h := feedU64 byte h c.parent.value.toNat
  let h := feedU64 byte h c.resultingVersion
  let h := feedU64 byte h c.resultingAllocator
  let h := feedU64 byte h c.operations.length
  c.operations.foldl (feedOperation byte) h

variable {byte} (h : σ)

theorem feedString_eq (s : String) : feedString byte h s = (hashString s).foldl byte h := by
  simp [feedString, feedU64, feedBytes, hashString, List.foldl_append]

theorem feedAtom_eq (a : Atom) : feedAtom byte h a = (hashAtom a).foldl byte h := by
  cases a with
  | entity e => simp [feedAtom, feedU64, feedBytes, hashAtom]
  | literal l => simp [feedAtom, feedString_eq, hashAtom]

theorem feedFact_eq (f : Fact) : feedFact byte h f = (hashFact f).foldl byte h := by
  simp [feedFact, feedString_eq, feedAtom_eq, hashFact, List.foldl_append]

theorem feedOperation_eq (op : Operation) :
    feedOperation byte h op = (hashOperation op).foldl byte h := by
  cases op with
  | allocateEntity e => simp [feedOperation, feedU64, feedBytes, hashOperation]
  | define slot fact =>
    simp [feedOperation, feedString_eq, feedFact_eq, hashOperation, List.foldl_append]
  | forget slot => simp [feedOperation, feedString_eq, hashOperation]

theorem feedOperations_eq (ops : List Operation) :
    ops.foldl (feedOperation byte) h = (ops.flatMap hashOperation).foldl byte h := by
  induction ops generalizing h with
  | nil => rfl
  | cons op ops ih =>
    rw [List.foldl_cons, List.flatMap_cons, List.foldl_append, ← feedOperation_eq]
    exact ih _

/-- **The hasher absorbs the preimage**, whatever it makes of the bytes. -/
theorem feedWorld_eq (c : WorldContent) : feedWorld byte h c = c.preimage.foldl byte h := by
  simp only [feedWorld, feedU64, feedBytes, feedOperations_eq, WorldContent.preimage,
    List.foldl_append]

end Feeding

/-- The hasher of the source, FNV-1a, gives the world id. -/
theorem feedWorld_fnv (c : WorldContent) :
    WorldId.mk (feedWorld Fnv.absorb Fnv.offsetBasis c) = c.worldId := by
  rw [feedWorld_eq]
  rfl

/-- A hasher that only records gives the stream. -/
theorem feedWorld_records (c : WorldContent) :
    feedWorld (fun bytes b => bytes ++ [b]) [] c = c.preimage := by
  rw [feedWorld_eq]
  have h : ∀ (bs seen : List UInt8), bs.foldl (fun bytes b => bytes ++ [b]) seen = seen ++ bs := by
    intro bs
    induction bs with
    | nil => simp
    | cons b bs ih => intro seen; simp [ih]
  exact h _ []

/-! The stream is the operation codec of the commit file, with length fields of 8 bytes. -/

theorem hashAtom_eq (a : Atom) : hashAtom a = putAtom 8 a := by
  cases a with
  | entity e => rfl
  | literal l => rfl

theorem hashFact_eq (f : Fact) : hashFact f = putFact 8 f := by
  simp [hashFact, putFact, hashAtom_eq, hashString, putString]

theorem hashOperation_eq (op : Operation) : hashOperation op = putOperation 8 op := by
  cases op with
  | allocateEntity e => rfl
  | define slot fact => simp [hashOperation, putOperation, hashFact_eq, hashString, putString]
  | forget slot => rfl

/-- The texts of a reader that nobody sees fail. -/
def silent : Wording := ⟨fun _ _ => "", fun _ _ => "", "", fun _ => "", fun _ => ""⟩

/-- The reader of a preimage. The source has none: it is here to show that there is one. -/
def readPreimage : Decoder WorldContent := do
  let parent ← number silent.eof 8
  let version ← number silent.eof 8
  let allocator ← number silent.eof 8
  let count ← number silent.eof 8
  let operations ← times count (readOperation silent 8)
  pure ⟨⟨.ofNat parent⟩, version, allocator, operations⟩

/-- **A preimage is read back** as the content it was made of. -/
theorem reads_preimage {c : WorldContent} (hc : c.InRange) : Decode.Reads readPreimage c.preimage c := by
  obtain ⟨hversion, hallocator, hlength, hops⟩ := hc
  have hparent : c.parent.value.toNat < 2 ^ 64 := c.parent.value.toNat_lt
  have hread : ∀ op ∈ c.operations, Decode.Reads (readOperation silent 8) (hashOperation op) op := by
    intro op hop
    rw [hashOperation_eq]
    exact reads_operation (hops op hop)
  simp only [WorldContent.preimage, List.append_assoc]
  refine (reads_u64 hparent).bind ?_
  refine (reads_u64 hversion).bind ?_
  refine (reads_u64 hallocator).bind ?_
  refine (reads_u64 hlength).bind ?_
  have h := (reads_times c.operations hread).bind_pure fun ops =>
    WorldContent.mk ⟨.ofNat c.parent.value.toNat⟩ c.resultingVersion c.resultingAllocator ops
  rw [UInt64.ofNat_toNat] at h ⊢
  exact h

/-- **World-id preimages are unambiguous**: the hashed bytes determine the parent, the version,
the allocator and the operations, also in front of further bytes. So different contents share a
world id only where FNV-1a maps two different byte strings to one value. -/
theorem preimage_determines {c c' : WorldContent} (hc : c.InRange) (hc' : c'.InRange) :
    (∀ rest rest', c.preimage ++ rest = c'.preimage ++ rest' → c = c' ∧ rest = rest') ∧
      (feedWorld (fun bytes b => bytes ++ [b]) [] c = feedWorld (fun bytes b => bytes ++ [b]) [] c' →
        c.parent = c'.parent ∧ c.resultingVersion = c'.resultingVersion ∧
          c.resultingAllocator = c'.resultingAllocator ∧ c.operations = c'.operations) ∧
      (c ≠ c' → c.worldId = c'.worldId →
        c.preimage ≠ c'.preimage ∧ Fnv.fnv1a c.preimage = Fnv.fnv1a c'.preimage) := by
  have hinj : ∀ rest rest', c.preimage ++ rest = c'.preimage ++ rest' → c = c' ∧ rest = rest' :=
    fun _ _ h => (reads_preimage hc).append_inj (reads_preimage hc') h
  refine ⟨hinj, ?_, ?_⟩
  · intro h
    rw [feedWorld_records, feedWorld_records] at h
    obtain ⟨rfl, -⟩ := hinj [] [] (by rw [h])
    exact ⟨rfl, rfl, rfl, rfl⟩
  · intro hne hid
    refine ⟨fun h => hne (hinj [] [] (by rw [h])).1, ?_⟩
    rw [WorldContent.worldId_eq, WorldContent.worldId_eq] at hid
    exact WorldId.mk.inj hid

/-- Two forgets whose texts spell the same letters, cut differently. -/
theorem preimage_determines_forgets :
    let c : WorldContent := ⟨.genesis, 1, 1, [.forget ⟨"a"⟩, .forget ⟨"bc"⟩]⟩
    let c' : WorldContent := ⟨.genesis, 1, 1, [.forget ⟨"ab"⟩, .forget ⟨"c"⟩]⟩
    c.InRange ∧ c'.InRange ∧ c.preimage ≠ c'.preimage ∧
      ∀ rest rest', c.preimage ++ rest = c'.preimage ++ rest' → c = c' ∧ rest = rest' := by
  intro c c'
  have hc : c.InRange := by decide +kernel
  have hc' : c'.InRange := by decide +kernel
  have hne : c ≠ c' := by simp [c, c']
  have hinj := (preimage_determines hc hc').1
  exact ⟨hc, hc', fun h => hne (hinj [] [] (by rw [h])).1, hinj⟩

end ForthDB
