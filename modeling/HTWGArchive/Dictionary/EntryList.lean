import HTWGArchive.Dictionary.Node

namespace BinaryTreeDictionary.Entry

variable {K V : Type*} [DecidableEq K]

def lookup (es : List (Entry K V)) (k : K) : Option V :=
  (es.find? (fun e => e.key = k)).map (·.value)

theorem lookup_cons (e : Entry K V) (es : List (Entry K V)) (k : K) :
    lookup (e :: es) k = if e.key = k then some e.value else lookup es k := by
  by_cases h : e.key = k
  · simp [lookup, h]
  · simp [lookup, h]

theorem lookup_append (as bs : List (Entry K V)) (k : K) :
    lookup (as ++ bs) k = (lookup as k).or (lookup bs k) := by
  induction as with
  | nil => rfl
  | cons a as ih =>
    rw [List.cons_append, lookup_cons, lookup_cons, ih]
    split
    · rfl
    · rfl

theorem lookup_eq_none {es : List (Entry K V)} {k : K} :
    lookup es k = none ↔ ∀ e ∈ es, e.key ≠ k := by
  simp [lookup, List.find?_eq_none]

theorem lookup_middle {as bs : List (Entry K V)} {e : Entry K V}
    (has : ∀ a ∈ as, a.key ≠ e.key) : lookup (as ++ e :: bs) e.key = some e.value := by
  rw [lookup_append, lookup_eq_none.mpr has, Option.none_or, lookup_cons, if_pos rfl]

theorem lookup_middle_of_ne (as bs : List (Entry K V)) {e : Entry K V} {k : K} (h : e.key ≠ k) :
    lookup (as ++ e :: bs) k = lookup (as ++ bs) k := by
  rw [lookup_append, lookup_append, lookup_cons, if_neg h]

theorem lookup_insert {as bs : List (Entry K V)} {e : Entry K V}
    (has : ∀ a ∈ as, a.key ≠ e.key) :
    lookup (as ++ e :: bs) = Function.update (lookup (as ++ bs)) e.key (some e.value) := by
  funext k
  by_cases hk : k = e.key
  · rw [hk, Function.update_self, lookup_middle has]
  · rw [Function.update_of_ne hk, lookup_middle_of_ne as bs (Ne.symm hk)]

theorem lookup_remove {as bs : List (Entry K V)} {e : Entry K V}
    (has : ∀ a ∈ as ++ bs, a.key ≠ e.key) :
    lookup (as ++ bs) = Function.update (lookup (as ++ e :: bs)) e.key none := by
  funext k
  by_cases hk : k = e.key
  · rw [hk, Function.update_self, lookup_eq_none.mpr has]
  · rw [Function.update_of_ne hk, lookup_middle_of_ne as bs (Ne.symm hk)]

end BinaryTreeDictionary.Entry
