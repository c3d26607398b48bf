import Mathlib.Data.List.Basic
import Mathlib.Data.List.Nodup
import Mathlib.Logic.Function.Basic

namespace LinkedChain

variable {A : Type*} {next next' : A → Option A} {start : Option A} {node new : A}
  {nodes front back : List A}

-- The nodes that are reached from a start pointer up to the null pointer.
inductive Chain (next : A → Option A) : Option A → List A → Prop where
  | nil : Chain next none []
  | cons {node : A} {nodes : List A} :
      Chain next (next node) nodes → Chain next (some node) (node :: nodes)

theorem chain_nil : Chain next start [] ↔ start = none := by
  constructor
  · rintro ⟨⟩
    rfl
  · rintro rfl
    exact Chain.nil

theorem chain_cons :
    Chain next start (node :: nodes) ↔ start = some node ∧ Chain next (next node) nodes := by
  constructor
  · rintro (_ | h)
    exact ⟨rfl, h⟩
  · rintro ⟨rfl, h⟩
    exact Chain.cons h

namespace Chain

theorem unique (h : Chain next start nodes) : ∀ {nodes'}, Chain next start nodes' →
    nodes = nodes' := by
  induction h with
  | nil =>
    rintro _ ⟨⟩
    rfl
  | cons _ ih =>
    rintro _ (_ | h')
    rw [ih h']

theorem tail (h : Chain next start (front ++ node :: back)) :
    Chain next (some node) (node :: back) := by
  induction front generalizing start with
  | nil =>
    rw [List.nil_append, chain_cons] at h
    exact Chain.cons h.2
  | cons x front ih =>
    rw [List.cons_append, chain_cons] at h
    exact ih h.2

-- A node that came back would start two chains of different lengths.
theorem nodup (h : Chain next start nodes) : nodes.Nodup := by
  induction h with
  | nil => exact List.nodup_nil
  | @cons node nodes hrest ih =>
    refine List.nodup_cons.mpr ⟨?_, ih⟩
    intro hmem
    obtain ⟨front, back, rfl⟩ := List.append_of_mem hmem
    have hlength := congrArg List.length ((Chain.cons hrest).unique hrest.tail)
    simp only [List.length_cons, List.length_append] at hlength
    omega

theorem congr (h : Chain next start nodes) (hnext : ∀ x ∈ nodes, next' x = next x) :
    Chain next' start nodes := by
  induction h with
  | nil => exact Chain.nil
  | cons _ ih =>
    refine Chain.cons ?_
    rw [hnext _ List.mem_cons_self]
    exact ih (fun x hx => hnext x (List.mem_cons_of_mem _ hx))

theorem next_last (h : Chain next start nodes) (hlast : nodes.getLast? = some node) :
    next node = none := by
  induction h with
  | nil => cases hlast
  | @cons x nodes hrest ih =>
    cases nodes with
    | nil =>
      obtain rfl : x = node := by simpa using hlast
      exact chain_nil.mp hrest
    | cons y nodes => exact ih (by simpa using hlast)

theorem next_head (h : Chain next start (node :: nodes)) (hnext : next node = some new) :
    ∃ back, nodes = new :: back := by
  have hrest := (chain_cons.mp h).2
  rw [hnext] at hrest
  cases hrest with
  | cons _ => exact ⟨_, rfl⟩

variable [DecidableEq A]

theorem update (h : Chain next start nodes) (hnode : node ∉ nodes) (link : Option A) :
    Chain (Function.update next node link) start nodes :=
  h.congr (fun _ hx => Function.update_of_ne (ne_of_mem_of_not_mem hx hnode) _ _)

-- A node is hung onto the last one.
theorem link (h : Chain next start nodes) (hlast : nodes.getLast? = some node)
    (hnew : next new = none) (hnot : new ∉ nodes) :
    Chain (Function.update next node (some new)) start (nodes ++ [new]) := by
  induction h with
  | nil => cases hlast
  | @cons x nodes hrest ih =>
    have hx := (List.nodup_cons.mp (Chain.cons hrest).nodup).1
    have hne := List.ne_of_not_mem_cons hnot
    have hrestnot := List.not_mem_of_not_mem_cons hnot
    refine Chain.cons ?_
    cases nodes with
    | nil =>
      obtain rfl : x = node := by simpa using hlast
      rw [Function.update_self]
      refine Chain.cons ?_
      rw [Function.update_of_ne hne, hnew]
      exact Chain.nil
    | cons y nodes =>
      have hlast : (y :: nodes).getLast? = some node := by simpa using hlast
      have hxnode : x ≠ node := fun heq => hx (heq ▸ List.mem_of_getLast? hlast)
      rw [Function.update_of_ne hxnode]
      exact ih hlast hrestnot

-- The first node lets go of the one after it.
theorem unlink (h : Chain next start (node :: new :: back)) :
    Chain (Function.update next node (next new)) start (node :: back) := by
  have hnot := (List.nodup_cons.mp h.nodup).1
  obtain ⟨rfl, hrest⟩ := chain_cons.mp h
  refine Chain.cons ?_
  rw [Function.update_self]
  exact (chain_cons.mp hrest).2.update (fun hmem => hnot (List.mem_cons_of_mem _ hmem)) _

end Chain

end LinkedChain
