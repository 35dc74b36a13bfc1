import ForthDB.Lib.Dict

/-!
# Groups by a key

A map from keys to lists, filled by appending each value to the list of its key.
`Groups d key value xs`: the map `d` holds the values of `xs` by their keys, in the order
of `xs`. `Groups.push`: one more value keeps it.
-/

namespace Dict

variable {ι κ ν : Type} [DecidableEq κ]

/-- The values under a key. -/
def group (d : Dict κ (List ν)) (k : κ) : List ν := (d.lookup k).getD []

/-- Append a value to those of its key. -/
def pushTo (d : Dict κ (List ν)) (k : κ) (v : ν) : Dict κ (List ν) :=
  d.insert k (d.group k ++ [v])

@[simp] theorem group_empty (k : κ) : (∅ : Dict κ (List ν)).group k = [] := rfl

theorem group_pushTo (d : Dict κ (List ν)) (k k' : κ) (v : ν) :
    (d.pushTo k v).group k' = if k' = k then d.group k ++ [v] else d.group k' := by
  unfold pushTo group
  split
  · rename_i h
    subst h
    rw [AList.lookup_insert, Option.getD_some]
  · rename_i h
    rw [AList.lookup_insert_ne h]

/-- The values of `xs` by their keys, in the order of `xs`. -/
def Groups (d : Dict κ (List ν)) (key : ι → κ) (value : ι → ν) (xs : List ι) : Prop :=
  ∀ k, d.group k = (xs.filter fun x => key x = k).map value

variable {d : Dict κ (List ν)} {key : ι → κ} {value : ι → ν} {xs : List ι}

theorem groups_nil : Groups (∅ : Dict κ (List ν)) key value [] := fun _ => rfl

theorem Groups.push (h : d.Groups key value xs) (x : ι) :
    (d.pushTo (key x) (value x)).Groups key value (xs ++ [x]) := by
  intro k
  rw [group_pushTo, List.filter_append, List.map_append]
  by_cases hk : k = key x
  · subst hk
    rw [if_pos rfl, h]
    simp
  · rw [if_neg hk, h]
    simp [Ne.symm hk]

end Dict
