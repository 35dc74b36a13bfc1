import ForthDB.World.History

/-!
# Chains that commits produce

`World::reconstruct` replays a list of frames and compares the links, the allocator and
the world id of each frame with what the replay gives. A commit numbers its frame by the
version behind its base. The stores check that number of every frame they append or read
back; `reconstruct` only folds it into the hash.

* `Committed fs w`: commits from genesis, each on the world before it, left the frames
  `fs` and the world `w`.
* `committed_iff`: they are the chained frames that number their versions one by one.
* `reconstruct_exact_iff`: so `reconstruct` tells committed lists from others except where a
  chained list skips a version.
-/

namespace ForthDB

/-- Commits from genesis: each builds a candidate on the current world and publishes it. -/
inductive Committed : List CommitFrame → World → Prop
  | genesis : Committed [] World.genesis
  | commit {fs : List CommitFrame} {w : World} {ops : List Operation} {c : CandidateWorld} :
      Committed fs w → CandidateWorld.construct w ops = .ok (.ok c) →
      Committed (fs ++ [c.commitFrame]) (c.intoWorld c.commitFrame w.history)

/-- Every frame leads to the version behind its parent's. -/
def Consecutive (fs : List CommitFrame) : Prop :=
  ∀ f ∈ fs, f.resultingVersion = f.parentVersion + 1

instance : DecidablePred Consecutive := fun _ => inferInstanceAs (Decidable (∀ _ ∈ _, _))

namespace Committed

variable {fs : List CommitFrame} {w : World} {a b : WorldState}

theorem construct_eq {k : ForthDb} (hk : w.kernel = .ok k) (ops : List Operation) :
    CandidateWorld.construct w ops = .ok (CandidateWorld.constructFromState w.id w.version
      w.nextEntity w.operationCount k ops) := by
  rw [CandidateWorld.construct, hk]
  rfl

/-- **One commit** on a world that holds its history publishes one that holds the longer one. -/
theorem commit_holds {ops : List Operation} {c : CandidateWorld} (h : w.Holds fs a)
    (hh : w.history = fs) (hc : CandidateWorld.construct w ops = .ok (.ok c)) :
    (∃ b, (c.intoWorld c.commitFrame w.history).Holds (fs ++ [c.commitFrame]) b) ∧
      c.commitFrame.resultingVersion = c.commitFrame.parentVersion + 1 := by
  obtain ⟨k, hk, hstate⟩ := h.kernel
  have hc' : CandidateWorld.constructFromState w.id w.version w.nextEntity w.operationCount k ops =
      .ok c := by
    rw [construct_eq hk] at hc
    exact Except.ok.inj hc
  obtain ⟨b, hb, hheld, hops, hid, hversion, hbase, hbaseVersion, hcount⟩ :=
    CandidateWorld.applyAll_of_construct hstate hc'
  constructor
  · refine ⟨b, ?_⟩
    rw [hh]
    apply CandidateWorld.intoWorld_holds h.chained (hops ▸ hb) hheld hbase hbaseVersion
    · have hnext : c.nextEntity = b.next := hheld.next
      rw [hid, hbase, hversion, hops, hnext]
    · rw [hcount, h.operationCount]
  · show c.version = c.baseVersion + 1
    rw [hversion, hbaseVersion]

/-- **A run of commits** leaves a world that holds its frames, numbered one by one. -/
theorem holds (h : Committed fs w) : (∃ a, w.Holds fs a) ∧ w.history = fs ∧ Consecutive fs := by
  induction h with
  | genesis => exact ⟨⟨_, World.genesis_holds⟩, rfl, fun f hf => by cases hf⟩
  | @commit fs w ops c _ hc ih =>
    obtain ⟨⟨a, ha⟩, hh, hnumbered⟩ := ih
    obtain ⟨hb, hversion⟩ := commit_holds ha hh hc
    refine ⟨hb, by rw [← hh]; rfl, ?_⟩
    intro f hf
    rcases List.mem_append.1 hf with hf | hf
    · exact hnumbered f hf
    · obtain rfl := List.mem_singleton.1 hf
      exact hversion

/-- A chained list that numbers its versions one by one is what its own commits leave. -/
theorem of_chained {id : WorldId} {v : ℕ} (h : Chained fs id v a) (hn : Consecutive fs) :
    ∃ w, Committed fs w ∧ w.id = id ∧ w.version = v := by
  induction h with
  | nil => exact ⟨_, .genesis, rfl, rfl⟩
  | @snoc fs id v a b f hfs hparent hparentVersion hb hallocator hid ih =>
    obtain ⟨w, hw, hwid, hwversion⟩ := ih fun g hg => hn g (by simp [hg])
    obtain ⟨⟨a', ha'⟩, -, -⟩ := hw.holds
    obtain ⟨-, -, rfl⟩ := hfs.det ha'.chained
    obtain ⟨k, hk, hstate⟩ := ha'.kernel
    obtain ⟨k', hk', hc⟩ :=
      CandidateWorld.construct_ok hstate w.id w.version w.operationCount hb
    have hversion : f.resultingVersion = v + 1 := by rw [hn f (by simp), hparentVersion]
    -- the frame of the candidate is the given one, field by field
    have hframe : CommitFrame.mk w.id (calculateWorldId w.id (w.version + 1) b.next f.operations)
        w.version (w.version + 1) b.next f.operations = f := by
      rw [hwid, hwversion, ← hversion, ← hallocator, ← hparent, hid, ← hparentVersion]
    have hconstruct := construct_eq hk f.operations
    rw [hc] at hconstruct
    have hcommit := hw.commit hconstruct
    simp only [CandidateWorld.commitFrame] at hcommit
    rw [hframe] at hcommit
    refine ⟨_, hcommit, ?_, ?_⟩
    · show calculateWorldId w.id (w.version + 1) b.next f.operations = _
      rw [← hid, hwid, hwversion, hparent, hversion, hallocator]
    · show w.version + 1 = _
      rw [hwversion, hversion]

end Committed

variable {fs : List CommitFrame}

/-- **Committed lists** are the chained ones that number their versions one by one. -/
theorem committed_iff :
    (∃ w, Committed fs w) ↔ (∃ id v a, Chained fs id v a) ∧ Consecutive fs := by
  constructor
  · rintro ⟨w, hw⟩
    obtain ⟨⟨a, ha⟩, -, hnumbered⟩ := hw.holds
    exact ⟨⟨_, _, a, ha.chained⟩, hnumbered⟩
  · rintro ⟨⟨id, v, a, hc⟩, hnumbered⟩
    obtain ⟨w, hw, -, -⟩ := Committed.of_chained hc hnumbered
    exact ⟨w, hw⟩

/-- Whatever commits produce is reconstructed. -/
theorem reconstruct_of_committed {w : World} (h : Committed fs w) :
    ∃ w', World.reconstruct fs = .ok w' :=
  World.reconstruct_iff.2 (committed_iff.1 ⟨w, h⟩).1

/-- **Reconstruction accepts exactly committed chains** of a list when its versions count up one
by one, or when it breaks one of the rules that the replay compares: the links, the operations,
the allocators or the world ids. -/
theorem reconstruct_exact_iff (fs : List CommitFrame) :
    ((∃ w, World.reconstruct fs = .ok w) ↔ ∃ w, Committed fs w) ↔
      Consecutive fs ∨ ¬ ∃ id v a, Chained fs id v a := by
  rw [World.reconstruct_iff, committed_iff]
  by_cases hn : Consecutive fs <;> by_cases hc : ∃ id v a, Chained fs id v a <;> simp [hn, hc]

/-- A frame that allocates entity one and skips to version seven, under its own hash. -/
def skippingFrame : CommitFrame where
  parentWorld := .genesis
  resultingWorld := calculateWorldId .genesis 7 2 [.allocateEntity ⟨1⟩]
  parentVersion := 0
  resultingVersion := 7
  resultingAllocator := 2
  operations := [.allocateEntity ⟨1⟩]

/-- It is reconstructed, and no commits produce it. -/
theorem skipped_version_reconstructed :
    (∃ w, World.reconstruct [skippingFrame] = .ok w ∧ w.version = 7) ∧
      ¬ ∃ w, Committed [skippingFrame] w := by
  have hchain : Chained ([] ++ [skippingFrame]) skippingFrame.resultingWorld 7
      ⟨.empty, 0, 2⟩ := Chained.snoc .nil rfl rfl rfl rfl rfl
  constructor
  · obtain ⟨w, hw⟩ := World.reconstruct_iff.2 ⟨_, _, _, hchain⟩
    obtain ⟨a, ha, -⟩ := World.reconstruct_holds hw
    exact ⟨w, hw, (hchain.det ha.chained).2.1.symm⟩
  · intro h
    have hnumbered := (committed_iff.1 h).2
    exact absurd (hnumbered skippingFrame (by simp)) (by decide)

end ForthDB
