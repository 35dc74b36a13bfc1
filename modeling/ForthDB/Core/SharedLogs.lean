import ForthDB.Core.SharedMaps

/-!
# The persistent containers refine their models

`ChunkedLog` over the cells that its clones share, as `Core.SharedMaps` has `ShardedMap`.

* `push_view`: on the cells, a push is the push of `Core.Containers`.
* `LogClones.run_steps`: any calls on any tree of clones do what they do to lists.
* `containers_refine`: **clones of maps behave as finite maps, clones of logs as lists, and a
  call on one clone leaves the others as they are**.
-/

namespace ForthDB

open SharedTree

variable {σ κ ν τ : Type} {shards : ℕ}

/-! ## The clones of a log -/

/-- `push` at the chunk. A chunk that is missing is made with the value in it. -/
def pushEdit (value : τ) : Edit (List τ) Unit where
  act chunk := (chunk ++ [value], ())
  create := true
  blank := []
  width := 0
  prune := false
  isEmpty := List.isEmpty

namespace ChunkedLog

/-- The chunk that takes the next value: the last one while it has room. -/
def pushIndex (chunks : List (List τ)) : ℕ :=
  match chunks.getLast? with
  | some last => if last.length < logChunkCapacity then chunks.length - 1 else chunks.length
  | none => chunks.length

def toView (chunks : List (List τ)) : View (List τ) 1 :=
  .node (chunks.map fun chunk => some (.leaf chunk))

theorem toView_join (chunks : List (List τ)) (i : ℕ) :
    (toView chunks).children[i]?.join = chunks[i]? := by
  have hjoin : (chunks.map some)[i]?.join = chunks[i]? := by
    rw [List.getElem?_map]
    cases chunks[i]? with
    | none => rfl
    | some chunk => rfl
  exact hjoin

theorem leaves_toView (chunks : List (List τ)) : (toView chunks).leaves 1 = chunks := by
  have hleaves : (chunks.map some).reduceOption.flatMap (fun chunk => [chunk]) = chunks := by
    rw [List.flatMap_singleton', List.reduceOption, List.filterMap_map]
    exact List.filterMap_some
  exact hleaves

theorem length_toView (chunks : List (List τ)) : (toView chunks).children.length = chunks.length :=
  List.length_map _

theorem leafAt_toView (chunks : List (List τ)) (i : ℕ) :
    (toView chunks).leafAt 1 [i] = chunks[i]? := by
  unfold View.leafAt
  rw [toView_join]
  exact Option.bind_fun_some _

theorem toView_append (chunks : List (List τ)) (chunk : List τ) :
    toView (chunks ++ [chunk]) = .node ((toView chunks).children ++ [some (.leaf chunk)]) := by
  rw [toView, toView, View.children_node, List.map_append, List.map_singleton]

theorem create_pushEdit (value : τ) : (pushEdit value).create = true := rfl

/-- A chunk behind the last one. -/
theorem push_view_new (chunks : List (List τ)) (value : τ) :
    (pushEdit value).view 1 (toView chunks) [chunks.length] =
      (toView (chunks ++ [[value]]), some ()) := by
  have hmissing : (toView chunks).children[chunks.length]?.join = none := by
    rw [toView_join]
    exact List.getElem?_eq_none (Nat.le_refl _)
  rw [Edit.view_none _ hmissing, if_pos (create_pushEdit value), place,
    if_neg (by rw [length_toView]; omega), toView_append]
  rfl

/-- A value behind the others of the last chunk. -/
theorem push_view_last (chunks : List (List τ)) (last : List τ) (value : τ) :
    (pushEdit value).view 1 (toView (chunks ++ [last])) [chunks.length] =
      (toView (chunks ++ [last ++ [value]]), some ()) := by
  have hlast : (toView (chunks ++ [last])).children[chunks.length]?.join = some last := by
    rw [toView_join]
    exact List.getElem?_concat_length
  rw [Edit.view_some _ hlast, toView_append, toView_append, View.children_node, ← length_toView,
    List.set_append_right _ _ (Nat.le_refl _), Nat.sub_self]
  rfl

/-- **A push on the cells.** -/
theorem push_view (chunks : List (List τ)) (value : τ) :
    (pushEdit value).view 1 (toView chunks) [pushIndex chunks] =
      (toView (pushChunks chunks value), some ()) := by
  unfold pushIndex pushChunks
  cases hlast : chunks.getLast? with
  | none => exact push_view_new chunks value
  | some last =>
    by_cases hroom : last.length < logChunkCapacity
    · obtain ⟨full, rfl⟩ := List.getLast?_eq_some_iff.1 hlast
      simp only [if_pos hroom, List.dropLast_concat, List.length_append, List.length_singleton,
        Nat.add_sub_cancel]
      exact push_view_last full last value
    · simp only [if_neg hroom]
      exact push_view_new chunks value

end ChunkedLog

inductive LogOperation (τ : Type)
  | push (value : τ)
  | get (index : ℕ)
  | len
  | clone
  | drop

structure LogEvent (τ : Type) where
  member : ℕ
  operation : LogOperation τ

/-- An entry that is `none` is the panic of an index out of bounds. -/
inductive LogAnswer (τ : Type)
  | index (index : ℕ)
  | entry (entry : Option τ)
  | len (count : ℕ)
  | done

/-- The clones: the reference to the root, and `len`. -/
abbrev LogClones (τ : Type) : Type := Family (List τ) ℕ

namespace LogClones

/-- `ChunkedLog::default`. -/
def default : LogClones τ where
  heap := { leaves := [], branches := fun n => if n = 0 then [[]] else [] }
  members := [some (0, 0)]

def entryAt (f : LogClones τ) (root index : ℕ) : Option τ :=
  (f.heap.leafAt 1 root [index / logChunkCapacity]).bind fun chunk =>
    chunk[index % logChunkCapacity]?

/-- One call on one clone. A clone that is gone does not answer. -/
def apply (f : LogClones τ) (event : LogEvent τ) : LogClones τ × Option (LogAnswer τ) :=
  let j := event.member
  match f.members[j]?.join with
  | none => (f, none)
  | some (root, len) =>
    match event.operation with
    | .push value =>
      let (f, pushed) := f.edit (pushEdit value) 1 (fun len _ => len + 1) j
        [ChunkedLog.pushIndex (f.heap.leavesBelow 1 root)]
      (f, pushed.map fun _ => .index len)
    | .get index => (f, some (.entry (f.entryAt root index)))
    | .len => (f, some (.len len))
    | .clone => (f.clone j, some .done)
    | .drop => (f.drop j, some .done)

def run : LogClones τ → List (LogEvent τ) → LogClones τ × List (Option (LogAnswer τ))
  | f, [] => (f, [])
  | f, event :: events =>
    let (f, answer) := f.apply event
    let (f, answers) := run f events
    (f, answer :: answers)

/-- What a program can read of a clone: its entries and its length. -/
def reading (f : LogClones τ) (j : ℕ) : Option ((ℕ → Option τ) × ℕ) :=
  f.members[j]?.join.map fun (root, len) => (f.entryAt root, len)

end LogClones

/-- Lists, one for each clone. -/
abbrev LogModel (τ : Type) : Type := List (Option (List τ))

namespace LogModel

def apply (xss : LogModel τ) (event : LogEvent τ) : LogModel τ × Option (LogAnswer τ) :=
  let j := event.member
  match xss[j]?.join with
  | none => (xss, none)
  | some xs =>
    match event.operation with
    | .push value => (xss.set j (some (xs ++ [value])), some (.index xs.length))
    | .get index => (xss, some (.entry xs[index]?))
    | .len => (xss, some (.len xs.length))
    | .clone => (xss ++ [some xs], some .done)
    | .drop => (xss.set j none, some .done)

def run : LogModel τ → List (LogEvent τ) → LogModel τ × List (Option (LogAnswer τ))
  | xss, [] => (xss, [])
  | xss, event :: events =>
    let (xss, answer) := apply xss event
    let (xss, answers) := run xss events
    (xss, answer :: answers)

end LogModel

/-- Chunks, and a length, that behave as a list. -/
def Logs (v : View (List τ) 1 × ℕ) (xs : List τ) : Prop :=
  ∃ c : ChunkedLog τ, v = (ChunkedLog.toView c.chunks, c.len) ∧ c.Lists xs

section Logs

variable {v : View (List τ) 1 × ℕ} {xs : List τ}

theorem Logs.entry_eq (hv : Logs v xs) (index : ℕ) :
    ((v.1.leafAt 1 [index / logChunkCapacity]).bind fun chunk =>
      chunk[index % logChunkCapacity]?) = xs[index]? := by
  obtain ⟨c, rfl, hc⟩ := hv
  rw [ChunkedLog.leafAt_toView, ← hc.get_eq]
  rfl

theorem Logs.len_eq (hv : Logs v xs) : v.2 = xs.length := by
  obtain ⟨c, rfl, hc⟩ := hv
  exact hc.len

theorem Logs.push (hv : Logs v xs) (value : τ) :
    Logs (((pushEdit value).view 1 v.1 [ChunkedLog.pushIndex (v.1.leaves 1)]).1, v.2 + 1)
      (xs ++ [value]) := by
  obtain ⟨c, rfl, hc⟩ := hv
  refine ⟨(c.push value).2, ?_, (hc.push value).2⟩
  rw [ChunkedLog.leaves_toView, ChunkedLog.push_view]
  rfl

end Logs

namespace LogClones

variable {f : LogClones τ} {vs : List (Option (View (List τ) 1 × ℕ))} {xss : LogModel τ}

/-- **One call** does to a clone what it does to its list, and nothing to the others. -/
theorem apply_step (hf : f.Holds 1 vs) (hxss : List.Forall₂ (Option.Rel Logs) vs xss)
    (event : LogEvent τ) :
    ∃ vs', (f.apply event).1.Holds 1 vs' ∧
      List.Forall₂ (Option.Rel Logs) vs' (xss.apply event).1 ∧
      (f.apply event).2 = (xss.apply event).2 ∧
      ∀ i, i ≠ event.member → i < vs.length → vs'[i]? = vs[i]? := by
  obtain ⟨j, operation⟩ := event
  have hjoin := forall₂_join hxss j
  unfold LogClones.apply LogModel.apply
  cases hv : vs[j]?.join with
  | none =>
    rw [hv] at hjoin
    simp only [hf.gone hv, rel_none_left hjoin]
    exact ⟨vs, hf, hxss, trivial, fun i _ _ => rfl⟩
  | some v =>
    rw [hv] at hjoin
    obtain ⟨xs, hxs, hlogs⟩ := rel_some_left hjoin
    obtain ⟨root, hat, hshows⟩ := hf.member hv
    simp only [hat, hxs]
    have hset (w : Option (View (List τ) 1 × ℕ)) : ∀ i, i ≠ j → i < vs.length →
        (vs.set j w)[i]? = vs[i]? := fun i hi _ => List.getElem?_set_ne (Ne.symm hi)
    cases operation with
    | push value =>
      obtain ⟨hholds, hresult⟩ := hf.edit (pushEdit value) (fun len _ => len + 1) hv
        [ChunkedLog.pushIndex (f.heap.leavesBelow 1 root)]
      have hpush := hlogs.push value
      rw [← hshows.leaves_eq] at hpush
      refine ⟨_, hholds, forall₂_replace hxss (fun _ _ _ h => h) (.some hpush), ?_, hset _⟩
      simp only [hresult, Option.map_some, hlogs.len_eq]
    | get index =>
      refine ⟨vs, hf, hxss, congrArg (fun entry => some (LogAnswer.entry entry)) ?_, fun i _ _ => rfl⟩
      unfold entryAt
      rw [hshows.leafAt_eq]
      exact hlogs.entry_eq index
    | len =>
      exact ⟨vs, hf, hxss, congrArg (fun len => some (LogAnswer.len len)) hlogs.len_eq,
        fun i _ _ => rfl⟩
    | clone =>
      refine ⟨vs ++ [some v], ?_, List.rel_append hxss (.cons (.some hlogs) .nil), rfl,
        fun i _ hi => List.getElem?_append_left hi⟩
      have hclone := hf.clone j
      rw [hv] at hclone
      exact hclone
    | drop => exact ⟨_, hf.drop j, forall₂_replace hxss (fun _ _ _ h => h) .none, rfl, hset none⟩

/-- **Any calls on any tree of clones.** -/
theorem run_steps (hf : f.Holds 1 vs) (hxss : List.Forall₂ (Option.Rel Logs) vs xss)
    (events : List (LogEvent τ)) :
    ∃ vs', (f.run events).1.Holds 1 vs' ∧
      List.Forall₂ (Option.Rel Logs) vs' (xss.run events).1 ∧
      (f.run events).2 = (xss.run events).2 := by
  induction events generalizing f vs xss with
  | nil => exact ⟨vs, hf, hxss, rfl⟩
  | cons event events ih =>
    obtain ⟨vs₁, hf₁, hxss₁, hanswer, -⟩ := apply_step hf hxss event
    obtain ⟨vs₂, hf₂, hxss₂, hanswers⟩ := ih hf₁ hxss₁
    refine ⟨vs₂, hf₂, hxss₂, ?_⟩
    exact congrArg₂ List.cons hanswer hanswers

/-- A reading depends on the value of the clone only. -/
theorem reading_eq (hf : f.Holds 1 vs) (j : ℕ) : f.reading j = vs[j]?.join.map fun v =>
    (fun index => (v.1.leafAt 1 [index / logChunkCapacity]).bind fun chunk =>
      chunk[index % logChunkCapacity]?, v.2) := by
  unfold reading
  cases hv : vs[j]?.join with
  | none =>
    rw [hf.gone hv]
    rfl
  | some v =>
    obtain ⟨root, hat, hshows⟩ := hf.member hv
    rw [hat]
    unfold entryAt
    simp only [Option.map_some, hshows.leafAt_eq]

theorem reading_of (hf : f.Holds 1 vs) (hxss : List.Forall₂ (Option.Rel Logs) vs xss) (j : ℕ) :
    f.reading j = xss[j]?.join.map fun xs => (fun index => xs[index]?, xs.length) := by
  rw [reading_eq hf]
  have hjoin := forall₂_join hxss j
  generalize vs[j]?.join = v, xss[j]?.join = xs at hjoin ⊢
  cases hjoin with
  | some hlogs =>
    simp only [Option.map_some, hlogs.entry_eq, hlogs.len_eq]
  | none => rfl

theorem default_holds :
    ∃ v : View (List τ) 1 × ℕ, (default : LogClones τ).Holds 1 [some v] ∧ Logs v [] := by
  refine ⟨(ChunkedLog.toView [], 0), ?_, ChunkedLog.default, rfl, ChunkedLog.default_lists⟩
  have hshows : (LogClones.default : LogClones τ).heap.Shows 1 0 (ChunkedLog.toView []) :=
    ⟨[], rfl, .nil⟩
  exact .cons (.some ⟨hshows, rfl⟩) .nil

end LogClones

/-- **The persistent containers refine their plain models.** After any calls on any tree of clones,
the clones of a map have answered as finite maps, read as finite maps and keep no empty shard or
group; the clones of a log have answered as lists and read as lists; and one more call on
one clone changes no other. -/
theorem containers_refine [DecidableEq κ] [HashBytes κ] [Sharding shards] [LocalMap σ κ ν]
    [LawfulLocalMap σ κ ν] (mapCalls : List (MapEvent κ ν)) (logCalls : List (LogEvent τ)) :
    let maps := (MapClones.default shards : MapClones σ).run shards mapCalls
    let finite := MapModel.run [some ∅] mapCalls
    let logs := (LogClones.default : LogClones τ).run logCalls
    let lists := LogModel.run [some []] logCalls
    (List.Forall₂ (Option.Rel MapAnswer.Agree) maps.2 finite.2 ∧
      (∀ j, Option.Rel MapClones.Reading.Of (maps.1.reading shards j) finite.1[j]?.join) ∧
      maps.1.Pruned ∧
      ∀ call i, i ≠ call.member → i < maps.1.members.length →
        (maps.1.apply shards call).1.reading shards i = maps.1.reading shards i) ∧
    logs.2 = lists.2 ∧
      (∀ j, logs.1.reading j = lists.1[j]?.join.map fun xs => (fun index => xs[index]?, xs.length)) ∧
      ∀ call i, i ≠ call.member → i < logs.1.members.length →
        (logs.1.apply call).1.reading i = logs.1.reading i := by
  intro maps finite logs lists
  have hdefault : ∃ v : View σ 2 × ℕ, (MapClones.default shards : MapClones σ).Holds 2 [some v] ∧
      Models shards v (∅ : Dict κ ν) := MapClones.default_holds
  obtain ⟨v, hv, hmodels⟩ := hdefault
  obtain ⟨vs, hf, hds, hanswers⟩ :=
    MapClones.run_steps hv (.cons (.some hmodels) .nil : List.Forall₂ _ _ [some ∅]) mapCalls
  obtain ⟨w, hw, hlogs⟩ := LogClones.default_holds (τ := τ)
  obtain ⟨ws, hg, hxss, hlogAnswers⟩ := LogClones.run_steps hw (.cons (.some hlogs) .nil) logCalls
  refine ⟨⟨hanswers, MapClones.reading_of hf hds, MapClones.pruned_of hf hds, ?_⟩, hlogAnswers,
    LogClones.reading_of hg hxss, ?_⟩
  · intro call i hi hlt
    obtain ⟨vs', hf', -, -, hothers⟩ := MapClones.apply_step hf hds call
    rw [MapClones.reading_eq hf', MapClones.reading_eq hf, hothers i hi (by rwa [← hf.length_eq])]
  · intro call i hi hlt
    obtain ⟨ws', hg', -, -, hothers⟩ := LogClones.apply_step hg hxss call
    rw [LogClones.reading_eq hg', LogClones.reading_eq hg, hothers i hi (by rwa [← hg.length_eq])]

/-- A clone that writes over and drops what it shares, with finite maps as the shards. -/
theorem containers_refine_cloned :
    List.Forall₂ (Option.Rel MapAnswer.Agree)
      ((MapClones.default 4096 : MapClones (Dict SlotId ℕ)).run 4096
        [⟨0, .insert ⟨"a"⟩ 1⟩, ⟨0, .clone⟩, ⟨1, .insert ⟨"a"⟩ 2⟩, ⟨1, .remove ⟨"a"⟩⟩, ⟨1, .len⟩,
          ⟨0, .get ⟨"a"⟩⟩, ⟨0, .iter⟩]).2
      [some (.value none), some .done, some (.value (some 1)), some (.value (some 2)),
        some (.len 0), some (.value (some 1)), some (.entries [(⟨"a"⟩, 1)])] :=
  (@containers_refine (Dict SlotId ℕ) SlotId ℕ ℕ 4096 _ _ _ _ _ _ []).1.1

end ForthDB
