import HTWGArchive.Library.ThreadSums
import HTWGArchive.Sloppy.Mcqueue

namespace Mcqueue

open Interleaving Semaphore LinkedChain

def At.holdsHead : At → Bool
  | .dequeue .lockHead | .dequeue (.free _ _) => false
  | .dequeue _ => true
  | _ => false

def At.holdsTail : At → Bool
  | .enqueue (.loadTail _) _ | .enqueue (.link _ _) _ | .enqueue (.moveTail _) _ => true
  | .enqueue .unlockTail _ => true
  | _ => false

-- A node that only this thread can reach: not linked yet, or the old head.
def At.owned : At → Option ℕ
  | .enqueue (.storeValue tmp) _ | .enqueue (.storeNext tmp) _ | .enqueue (.lockTail tmp) _ => some tmp
  | .enqueue (.loadTail tmp) _ | .enqueue (.link tmp _) _ => some tmp
  | .dequeue (.unlockHead tmp _) | .dequeue (.free tmp _) => some tmp
  | _ => none

def At.moves : At → Bool
  | .enqueue (.moveTail _) _ => true
  | _ => false

-- `nodes` come after the head node and hold what has been linked and not taken.
structure Linked (q : Queue) (nodes : List ℕ) : Prop where
  chain : Chain q.next (some q.head) (q.head :: nodes)
  live : ∀ a ∈ q.head :: nodes, q.live a = true
  content : q.enqueued = q.dequeued ++ nodes.map q.value

def last (q : Queue) (nodes : List ℕ) : Option ℕ :=
  (q.head :: nodes).getLast?

-- What a thread knows from the lock it holds and from its own node.
def Fact (q : Queue) (nodes : List ℕ) : At → Prop
  | .enqueue (.storeNext tmp) v => q.value tmp = v
  | .enqueue (.lockTail tmp) v | .enqueue (.loadTail tmp) v => q.value tmp = v ∧ q.next tmp = none
  | .enqueue (.link tmp tail) v => (q.value tmp = v ∧ q.next tmp = none) ∧ tail = q.tail
  | .enqueue (.moveTail tmp) _ => last q nodes = some tmp
  | .dequeue (.loadNext tmp) => tmp = q.head
  | .dequeue (.test tmp newHead seen) =>
    tmp = q.head ∧ (∀ n, newHead = some n → q.next tmp = some n) ∧
      (newHead = none → seen.linked = seen.taken)
  | .dequeue (.unlockEmpty seen) => seen.linked = seen.taken
  | .dequeue (.loadValue tmp newHead) => tmp = q.head ∧ q.next tmp = some newHead
  | .dequeue (.moveHead tmp newHead v) =>
    (tmp = q.head ∧ q.next tmp = some newHead) ∧ q.value newHead = v
  | _ => True

-- The nodes behind the head after the step.
def nodesAfter (nodes : List ℕ) : At → List ℕ
  | .enqueue (.link tmp _) _ => nodes ++ [tmp]
  | .dequeue (.moveHead _ _ _) => nodes.tail
  | _ => nodes

namespace Linked

variable {q q' : Queue} {nodes : List ℕ} {a tmp n : ℕ} {v : Int}

theorem congr (h : Linked q nodes) (hhead : q'.head = q.head)
    (hnext : ∀ a ∈ q.head :: nodes, q'.next a = q.next a)
    (hvalue : ∀ a ∈ nodes, q'.value a = q.value a)
    (hlive : ∀ a ∈ q.head :: nodes, q'.live a = q.live a)
    (henqueued : q'.enqueued = q.enqueued) (hdequeued : q'.dequeued = q.dequeued) :
    Linked q' nodes where
  chain := by
    rw [hhead]
    exact h.chain.congr hnext
  live b hb := by
    rw [hhead] at hb
    rw [hlive b hb]
    exact h.live b hb
  content := by
    rw [henqueued, hdequeued, h.content, List.map_congr_left hvalue]

theorem link (h : Linked q nodes) (hlast : last q nodes = some a) (hnot : tmp ∉ q.head :: nodes)
    (hnext : q.next tmp = none) (hvalue : q.value tmp = v) (hlive : q.live tmp = true) :
    Linked { q with next := Function.update q.next a (some tmp), enqueued := q.enqueued ++ [v] }
      (nodes ++ [tmp]) where
  chain := h.chain.link hlast hnext hnot
  live b hb := by
    rcases List.mem_append.mp (List.cons_append ▸ hb) with hb | hb
    · exact h.live b hb
    · rw [List.mem_singleton.mp hb]
      exact hlive
  content := by
    simp [h.content, hvalue]

theorem next_head (h : Linked q nodes) (hnext : q.next q.head = some n) :
    ∃ rest, nodes = n :: rest :=
  h.chain.next_head hnext

theorem moveHead (h : Linked q nodes) (hnext : q.next q.head = some n) (hvalue : q.value n = v) :
    Linked { q with head := n, dequeued := q.dequeued ++ [v] } nodes.tail := by
  obtain ⟨rest, rfl⟩ := h.next_head hnext
  refine ⟨?_, ?_, ?_⟩
  · have hrest := (chain_cons.mp h.chain).2
    rwa [hnext] at hrest
  · exact fun b hb => h.live b (List.mem_cons_of_mem _ hb)
  · simp [h.content, hvalue]

theorem last_mem (h : last q nodes = some a) : a ∈ q.head :: nodes :=
  List.mem_of_getLast? h

theorem empty (h : Linked q nodes) (hnext : q.next q.head = none) : q.enqueued = q.dequeued := by
  have hrest := (chain_cons.mp h.chain).2
  rw [hnext] at hrest
  cases hrest
  simpa using h.content

theorem last_tail (h : Linked q nodes) (hnext : q.next q.head = some n) :
    last { q with head := n, dequeued := q.dequeued ++ [v] } nodes.tail = last q nodes := by
  obtain ⟨rest, rfl⟩ := h.next_head hnext
  simp [last]

theorem head_not_last (h : Linked q nodes) (hnext : q.next q.head = some n) :
    last q nodes ≠ some q.head := by
  intro hlast
  rw [h.chain.next_last hlast] at hnext
  cases hnext

end Linked

-- What the thread that takes the step may rely on.
structure Ready (q : Queue) (nodes : List ℕ) (l : At) : Prop where
  linked : Linked q nodes
  fact : Fact q nodes l
  owned : ∀ a, l.owned = some a → q.live a = true ∧ a ∉ q.head :: nodes
  tail : l.holdsTail = true → l.moves = false → last q nodes = some q.tail

namespace Moves

variable {l l' : At} {q q' : Queue} {nodes : List ℕ} {a : ℕ}

theorem uses_headLock (h : Moves l q l' q') :
    Uses (fun l => At.holdsHead l = true) q.headLock q'.headLock l l' := by
  cases h with
  | lockHead hn => exact Or.inl ⟨hn, rfl⟩
  | unlockEmpty => exact Or.inr (Or.inl ⟨rfl, rfl, by simp [At.holdsHead]⟩)
  | unlockHead => exact Or.inr (Or.inl ⟨rfl, rfl, by simp [At.holdsHead]⟩)
  | _ => exact Or.inr (Or.inr ⟨rfl, by simp [At.holdsHead]⟩)

theorem uses_tailLock (h : Moves l q l' q') :
    Uses (fun l => At.holdsTail l = true) q.tailLock q'.tailLock l l' := by
  cases h with
  | lockTail _ _ hn => exact Or.inl ⟨hn, rfl⟩
  | unlockTail => exact Or.inr (Or.inl ⟨rfl, rfl, by simp [At.holdsTail]⟩)
  | _ => exact Or.inr (Or.inr ⟨rfl, by simp [At.holdsTail]⟩)

theorem linked (h : Moves l q l' q') (hl : Ready q nodes l) : Linked q' (nodesAfter nodes l) := by
  have hlinked := hl.linked
  have howned := hl.owned
  cases h with
  | malloc _ hfree =>
    refine hlinked.congr rfl (fun _ _ => rfl) (fun _ _ => rfl) ?_ rfl rfl
    intro b hb
    refine Function.update_of_ne ?_ _ _
    rintro rfl
    rw [hlinked.live b hb] at hfree
    cases hfree
  | storeValue _ tmp v =>
    refine hlinked.congr rfl (fun _ _ => rfl) ?_ (fun _ _ => rfl) rfl rfl
    intro b hb
    refine Function.update_of_ne ?_ _ _
    rintro rfl
    exact (howned b rfl).2 (List.mem_cons_of_mem _ hb)
  | storeNext _ tmp v =>
    refine hlinked.congr rfl ?_ (fun _ _ => rfl) (fun _ _ => rfl) rfl rfl
    intro b hb
    refine Function.update_of_ne ?_ _ _
    rintro rfl
    exact (howned b rfl).2 hb
  | link _ tmp tail v =>
    obtain ⟨⟨hvalue, hnext⟩, rfl⟩ := hl.fact
    exact hlinked.link (hl.tail rfl rfl) (howned tmp rfl).2 hnext hvalue (howned tmp rfl).1
  | moveHead _ tmp newHead v =>
    obtain ⟨⟨rfl, hnext⟩, hvalue⟩ := hl.fact
    exact hlinked.moveHead hnext hvalue
  | free _ tmp v =>
    refine hlinked.congr rfl (fun _ _ => rfl) (fun _ _ => rfl) ?_ rfl rfl
    intro b hb
    refine Function.update_of_ne ?_ _ _
    rintro rfl
    exact (howned b rfl).2 hb
  | _ => exact hlinked.congr rfl (fun _ _ => rfl) (fun _ _ => rfl) (fun _ _ => rfl) rfl rfl

theorem fact (h : Moves l q l' q') (hl : Ready q nodes l) : Fact q' (nodesAfter nodes l) l' := by
  have hfact := hl.fact
  cases h with
  | storeValue _ tmp v => exact Function.update_self _ _ _
  | storeNext _ tmp v => exact ⟨hfact, Function.update_self _ _ _⟩
  | lockTail => exact hfact
  | loadTail => exact ⟨hfact, rfl⟩
  | link _ tmp =>
    change (q.head :: nodes ++ [tmp]).getLast? = some tmp
    exact List.getLast?_concat
  | loadHead => exact rfl
  | loadNext _ tmp =>
    obtain rfl : tmp = q.head := hfact
    exact ⟨rfl, fun _ hn => hn, hl.linked.empty⟩
  | testNull => exact hfact.2.2 rfl
  | testNode => exact ⟨hfact.1, hfact.2.1 _ rfl⟩
  | loadValue => exact ⟨hfact, rfl⟩
  | _ => trivial

theorem value_kept (h : Moves l q l' q') (ha : l.owned ≠ some a) : q'.value a = q.value a := by
  cases h with
  | storeValue _ tmp v =>
    refine Function.update_of_ne ?_ _ _
    rintro rfl
    exact ha rfl
  | _ => rfl

theorem next_kept (h : Moves l q l' q') (hl : Ready q nodes l) (ha : l.owned ≠ some a)
    (hlast : last q nodes ≠ some a) : q'.next a = q.next a := by
  cases h with
  | storeNext _ tmp v =>
    refine Function.update_of_ne ?_ _ _
    rintro rfl
    exact ha rfl
  | link _ tmp tail v =>
    obtain ⟨-, rfl⟩ := hl.fact
    refine Function.update_of_ne ?_ _ _
    rintro rfl
    exact hlast (hl.tail rfl rfl)
  | _ => rfl

theorem live_kept (h : Moves l q l' q') (ha : l.owned ≠ some a) (hlive : q.live a = true) :
    q'.live a = true := by
  cases h with
  | malloc _ hfree =>
    refine (Function.update_of_ne ?_ _ _).trans hlive
    rintro rfl
    rw [hlive] at hfree
    cases hfree
  | free _ tmp v =>
    refine (Function.update_of_ne ?_ _ _).trans hlive
    rintro rfl
    exact ha rfl
  | _ => exact hlive

theorem head_kept (h : Moves l q l' q') (hl : l.holdsHead ≠ true) : q'.head = q.head := by
  cases h with
  | moveHead => simp [At.holdsHead] at hl
  | _ => rfl

theorem tail_kept (h : Moves l q l' q') (hl : Ready q nodes l) (hbefore : l.moves = false)
    (hafter : l'.moves = false) :
    q'.tail = q.tail ∧ last q' (nodesAfter nodes l) = last q nodes := by
  cases h with
  | link => cases hafter
  | moveTail => cases hbefore
  | moveHead _ tmp newHead v =>
    obtain ⟨⟨rfl, hnext⟩, -⟩ := hl.fact
    exact ⟨rfl, hl.linked.last_tail hnext⟩
  | _ => exact ⟨rfl, rfl⟩

theorem tail_moved (h : Moves l q l' q') (hl : Ready q nodes l) (hbefore : l.moves = true) :
    last q' (nodesAfter nodes l) = some q'.tail := by
  cases h with
  | moveTail => exact hl.fact
  | _ => cases hbefore

theorem moves_after (h : Moves l q l' q') (hafter : l'.moves = true) : l.holdsTail = true := by
  cases h with
  | link => rfl
  | _ => cases hafter

theorem nodes_kept (h : Moves l q l' q') (hl : Ready q nodes l) {b : ℕ}
    (hb : b ∈ q'.head :: nodesAfter nodes l) : b ∈ q.head :: nodes ∨ l.owned = some b := by
  cases h with
  | link _ tmp tail v =>
    rcases List.mem_append.mp (List.cons_append ▸ hb) with hb | hb
    · exact Or.inl hb
    · rw [List.mem_singleton.mp hb]
      exact Or.inr rfl
  | moveHead _ tmp newHead v =>
    obtain ⟨⟨rfl, hnext⟩, -⟩ := hl.fact
    obtain ⟨rest, rfl⟩ := hl.linked.next_head hnext
    exact Or.inl (List.mem_cons_of_mem _ hb)
  | _ => exact Or.inl hb

-- A thread gets a node of its own from `malloc` or by taking the old head.
theorem owned_after (h : Moves l q l' q') (hl : Ready q nodes l) (ha : l'.owned = some a) :
    (q'.live a = true ∧ a ∉ q'.head :: nodesAfter nodes l) ∧
      (l.owned = some a ∨ q.live a = false ∨ a ∈ q.head :: nodes) := by
  have hlinked := hl.linked
  have hkept : l.owned = some a → q.live a = true ∧ a ∉ q.head :: nodes := hl.owned a
  cases h with
  | malloc _ hfree =>
    obtain rfl := Option.some.inj ha
    refine ⟨⟨Function.update_self _ _ _, ?_⟩, Or.inr (Or.inl hfree)⟩
    intro hmem
    rw [hlinked.live _ hmem] at hfree
    cases hfree
  | moveHead _ tmp newHead v =>
    obtain rfl := Option.some.inj ha
    obtain ⟨⟨rfl, hnext⟩, -⟩ := hl.fact
    obtain ⟨rest, rfl⟩ := hlinked.next_head hnext
    refine ⟨⟨hlinked.live _ List.mem_cons_self, ?_⟩, Or.inr (Or.inr List.mem_cons_self)⟩
    exact (List.nodup_cons.mp hlinked.chain.nodup).1
  | storeValue => exact ⟨hkept ha, Or.inl ha⟩
  | storeNext => exact ⟨hkept ha, Or.inl ha⟩
  | lockTail => exact ⟨hkept ha, Or.inl ha⟩
  | loadTail => exact ⟨hkept ha, Or.inl ha⟩
  | unlockHead => exact ⟨hkept ha, Or.inl ha⟩
  | _ => cases ha

end Moves

-- Another thread keeps what it knows.
theorem Fact.frame {l : At} {q q' : Queue} {nodes nodes' : List ℕ} (h : Fact q nodes l)
    (howned : ∀ a, l.owned = some a → q'.value a = q.value a ∧ q'.next a = q.next a)
    (htail : l.holdsTail = true → q'.tail = q.tail ∧ last q' nodes' = last q nodes)
    (hhead : l.holdsHead = true → q'.head = q.head ∧
      ∀ n, q.next q.head = some n → q'.next q.head = some n ∧ q'.value n = q.value n) :
    Fact q' nodes' l := by
  cases l with
  | next => trivial
  | enqueue p v =>
    cases p with
    | storeNext tmp => exact (howned tmp rfl).1.trans h
    | lockTail tmp => exact ⟨(howned tmp rfl).1.trans h.1, (howned tmp rfl).2.trans h.2⟩
    | loadTail tmp => exact ⟨(howned tmp rfl).1.trans h.1, (howned tmp rfl).2.trans h.2⟩
    | link tmp tail =>
      exact ⟨⟨(howned tmp rfl).1.trans h.1.1, (howned tmp rfl).2.trans h.1.2⟩,
        h.2.trans (htail rfl).1.symm⟩
    | moveTail tmp => exact (htail rfl).2.trans h
    | _ => trivial
  | dequeue p =>
    cases p with
    | loadNext tmp => exact Eq.trans h (hhead rfl).1.symm
    | test tmp newHead seen =>
      obtain ⟨rfl, hnext, hseen⟩ := h
      exact ⟨(hhead rfl).1.symm, fun n hn => ((hhead rfl).2 n (hnext n hn)).1, hseen⟩
    | unlockEmpty seen => exact h
    | loadValue tmp newHead =>
      obtain ⟨rfl, hnext⟩ := h
      exact ⟨(hhead rfl).1.symm, ((hhead rfl).2 newHead hnext).1⟩
    | moveHead tmp newHead v =>
      obtain ⟨⟨rfl, hnext⟩, hvalue⟩ := h
      obtain ⟨hnext', hvalue'⟩ := (hhead rfl).2 newHead hnext
      exact ⟨⟨(hhead rfl).1.symm, hnext'⟩, hvalue'.trans hvalue⟩
    | _ => trivial

theorem At.holdsTail_of_moves {l : At} (h : l.moves = true) : l.holdsTail = true := by
  unfold At.moves at h
  split at h
  · rfl
  · cases h

variable {T : Type*}

structure Inv (s : State T Thread Queue) (nodes : List ℕ) : Prop where
  headLock : Guards (fun l : Thread => l.point.holdsHead = true) s.shared.headLock s.locals
  tailLock : Guards (fun l : Thread => l.point.holdsTail = true) s.shared.tailLock s.locals
  linked : Linked s.shared nodes
  tail : (∀ t, (s.locals t).point.moves = false) → last s.shared nodes = some s.shared.tail
  fact : ∀ t, Fact s.shared nodes (s.locals t).point
  owned : ∀ t a, (s.locals t).point.owned = some a →
    s.shared.live a = true ∧ a ∉ s.shared.head :: nodes
  distinct : ∀ t u a, (s.locals t).point.owned = some a → (s.locals u).point.owned = some a → t = u
  empty : ∀ t seen, .empty seen ∈ (s.locals t).returned → seen.linked = seen.taken

namespace Inv

variable {s : State T Thread Queue} {nodes : List ℕ} {t u : T}

theorem ready (h : Inv s nodes) (t : T) : Ready s.shared nodes (s.locals t).point where
  linked := h.linked
  fact := h.fact t
  owned := h.owned t
  tail hholds hmoves := by
    apply h.tail
    intro u
    cases hu : (s.locals u).point.moves with
    | false => rfl
    | true =>
      obtain rfl := h.tailLock.exclusive hholds (At.holdsTail_of_moves hu)
      rw [hmoves] at hu
      cases hu

-- A node is reached from the queue or belongs to one thread, and neither is freed.
theorem accesses_live (h : Inv s nodes) {a : ℕ} (ha : (s.locals t).point.accesses = some a) :
    s.shared.live a = true := by
  have hready := h.ready t
  have hfact := h.fact t
  cases hpoint : (s.locals t).point with
  | next => simp [hpoint, At.accesses] at ha
  | enqueue p v =>
    rw [hpoint] at ha hready hfact
    cases p with
    | storeValue tmp => exact (hready.owned a ha).1
    | storeNext tmp => exact (hready.owned a ha).1
    | link tmp tail =>
      obtain rfl := Option.some.inj ha
      obtain ⟨-, rfl⟩ := hfact
      exact h.linked.live _ (Linked.last_mem (hready.tail rfl rfl))
    | _ => cases ha
  | dequeue p =>
    rw [hpoint] at ha hready hfact
    cases p with
    | loadNext tmp =>
      obtain rfl := Option.some.inj ha
      obtain rfl : tmp = s.shared.head := hfact
      exact h.linked.live _ List.mem_cons_self
    | loadValue tmp newHead =>
      obtain rfl := Option.some.inj ha
      obtain ⟨rfl, hnext⟩ := hfact
      obtain ⟨rest, hnodes⟩ := h.linked.next_head hnext
      exact h.linked.live _ (by simp [hnodes])
    | free tmp v => exact (hready.owned a ha).1
    | _ => cases ha

variable {m : Allocator} {x : Thread × Queue}

-- A node that a thread has just got belonged to nobody.
theorem distinct_set (h : Inv s nodes) (hx : Moves (s.locals t).point s.shared x.1.point x.2)
    (hne : u ≠ t) {a : ℕ} (ha : x.1.point.owned = some a) :
    (s.locals u).point.owned ≠ some a := by
  intro hu
  obtain ⟨hlive, hnot⟩ := h.owned u a hu
  rcases (hx.owned_after (h.ready t) ha).2 with ht | hfree | hmem
  · exact hne (h.distinct u t a hu ht)
  · rw [hlive] at hfree
    cases hfree
  · exact hnot hmem

variable [DecidableEq T]

theorem fact_set (h : Inv s nodes) (hx : Moves (s.locals t).point s.shared x.1.point x.2) (u : T) :
    Fact x.2 (nodesAfter nodes (s.locals t).point) ((s.set t x).locals u).point := by
  have hready := h.ready t
  rcases eq_or_ne u t with rfl | hne
  · rw [State.set_locals_self]
    exact hx.fact hready
  · rw [State.set_locals_of_ne s hne]
    have hapart : ∀ a, (s.locals u).point.owned = some a → (s.locals t).point.owned ≠ some a :=
      fun a hu ht => hne (h.distinct u t a hu ht)
    refine (h.fact u).frame ?_ ?_ ?_
    · intro a ha
      refine ⟨hx.value_kept (hapart a ha), hx.next_kept hready (hapart a ha) ?_⟩
      exact fun hlast => (h.owned u a ha).2 (Linked.last_mem hlast)
    · intro hholds
      have hnot : ¬(s.locals t).point.holdsTail = true :=
        fun ht => hne (h.tailLock.exclusive hholds ht)
      refine hx.tail_kept hready ?_ ?_
      · exact Bool.eq_false_iff.mpr (fun hmoves => hnot (At.holdsTail_of_moves hmoves))
      · exact Bool.eq_false_iff.mpr (fun hmoves => hnot (hx.moves_after hmoves))
    · intro hholds
      have hnot : ¬(s.locals t).point.holdsHead = true :=
        fun ht => hne (h.headLock.exclusive hholds ht)
      refine ⟨hx.head_kept hnot, ?_⟩
      intro n hnext
      have hfree : ∀ a ∈ s.shared.head :: nodes, (s.locals t).point.owned ≠ some a :=
        fun a hmem ha => (h.owned t a ha).2 hmem
      obtain ⟨rest, hnodes⟩ := h.linked.next_head hnext
      refine ⟨?_, hx.value_kept (hfree n (by simp [hnodes]))⟩
      rw [hx.next_kept hready (hfree _ List.mem_cons_self) (h.linked.head_not_last hnext), hnext]

theorem owned_set (h : Inv s nodes) (hx : Moves (s.locals t).point s.shared x.1.point x.2) {a : ℕ}
    (ha : ((s.set t x).locals u).point.owned = some a) :
    x.2.live a = true ∧ a ∉ x.2.head :: nodesAfter nodes (s.locals t).point := by
  have hready := h.ready t
  rcases eq_or_ne u t with rfl | hne
  · rw [State.set_locals_self] at ha
    exact (hx.owned_after hready ha).1
  · rw [State.set_locals_of_ne s hne] at ha
    have hapart : (s.locals t).point.owned ≠ some a := fun ht => hne (h.distinct u t a ha ht)
    obtain ⟨hlive, hnot⟩ := h.owned u a ha
    refine ⟨hx.live_kept hapart hlive, ?_⟩
    intro hmem
    rcases hx.nodes_kept hready hmem with hmem | hmem
    · exact hnot hmem
    · exact hapart hmem

theorem tail_set (h : Inv s nodes) (hx : Moves (s.locals t).point s.shared x.1.point x.2)
    (hstill : ∀ u, ((s.set t x).locals u).point.moves = false) :
    last x.2 (nodesAfter nodes (s.locals t).point) = some x.2.tail := by
  have hafter := hstill t
  rw [State.set_locals_self] at hafter
  cases hbefore : (s.locals t).point.moves with
  | true => exact hx.tail_moved (h.ready t) hbefore
  | false =>
    obtain ⟨htail, hlast⟩ := hx.tail_kept (h.ready t) hbefore hafter
    rw [htail, hlast]
    apply h.tail
    intro u
    rcases eq_or_ne u t with rfl | hne
    · exact hbefore
    · have hu := hstill u
      rwa [State.set_locals_of_ne s hne] at hu

theorem set (h : Inv s nodes) (hstep : step m (s.locals t) s.shared = some x) :
    Inv (s.set t x) (nodesAfter nodes (s.locals t).point) := by
  have hx := step_moves hstep
  have hready := h.ready t
  constructor
  · exact h.headLock.use hx.uses_headLock
  · exact h.tailLock.use hx.uses_tailLock
  · exact hx.linked hready
  · exact h.tail_set hx
  · exact h.fact_set hx
  · exact fun u a => h.owned_set hx
  · intro u w a hu hw
    rcases eq_or_ne u t with rfl | hut
    · rcases eq_or_ne w u with rfl | hwu
      · rfl
      · rw [State.set_locals_self] at hu
        rw [State.set_locals_of_ne s hwu] at hw
        exact absurd hw (h.distinct_set hx hwu hu)
    · rw [State.set_locals_of_ne s hut] at hu
      rcases eq_or_ne w t with rfl | hwt
      · rw [State.set_locals_self] at hw
        exact absurd hu (h.distinct_set hx hut hw)
      · rw [State.set_locals_of_ne s hwt] at hw
        exact h.distinct u w a hu hw
  · intro u seen hr
    rcases eq_or_ne u t with rfl | hne
    · rw [State.set_locals_self, step_returned hstep] at hr
      rcases List.mem_append.mp hr with hr | hr
      · exact h.empty u seen hr
      · have hfact := h.fact u
        unfold At.returns at hr
        split at hr
        · rename_i hpoint
          rw [hpoint] at hfact
          obtain rfl := Result.empty.inj (List.mem_singleton.mp hr)
          exact hfact
        · cases List.mem_singleton.mp hr
        · cases hr
    · rw [State.set_locals_of_ne s hne] at hr
      exact h.empty u seen hr

end Inv

def start (tmp : ℕ) (next : ℕ → Option ℕ) (value : ℕ → Int) (calls : T → List Call) :
    State T Thread Queue :=
  ⟨Queue.init tmp next value, fun t => Thread.start (calls t)⟩

variable {tmp : ℕ} {next : ℕ → Option ℕ} {value : ℕ → Int} {calls : T → List Call}

theorem inv_start : Inv (start tmp next value calls) [] where
  headLock := Or.inl ⟨rfl, by simp [start, Thread.start, At.holdsHead]⟩
  tailLock := Or.inl ⟨rfl, by simp [start, Thread.start, At.holdsTail]⟩
  linked := by
    refine ⟨Chain.cons ?_, by simp [start, Queue.init], rfl⟩
    simpa [start, Queue.init] using Chain.nil
  tail _ := rfl
  fact _ := trivial
  owned t a ha := by simp [start, Thread.start, At.owned] at ha
  distinct t u a ha := by simp [start, Thread.start, At.owned] at ha
  empty t seen hr := by simp [start, Thread.start] at hr

variable [DecidableEq T] {m : Allocator} {s : State T Thread Queue}

theorem reached (h : Reachable (step m) (start tmp next value calls) s) : ∃ nodes, Inv s nodes :=
  Reachable.invariant (I := fun s => ∃ nodes, Inv s nodes) ⟨[], inv_start⟩
    (fun _ _ _ ih hx => by
      obtain ⟨nodes, hnodes⟩ := ih
      exact ⟨_, hnodes.set hx⟩) h

-- How often a value has been returned or is about to be, its node being taken already.
def At.taken (v : Int) : At → ℕ
  | .dequeue (.unlockHead _ value) | .dequeue (.free _ value) => if value = v then 1 else 0
  | _ => 0

def Thread.taken (v : Int) (l : Thread) : ℕ :=
  l.returned.count (.value v) + l.point.taken v

theorem Moves.taken {l l' : At} {q q' : Queue} (h : Moves l q l' q') (v : Int) :
    q'.dequeued.count v + l.taken v =
      q.dequeued.count v + (l.returns.count (.value v) + l'.taken v) := by
  cases h with
  | moveHead => simp [At.taken, At.returns, List.count_singleton]
  | free => simp [At.taken, At.returns, List.count_singleton]
  | _ => simp [At.taken, At.returns]

variable [Fintype T]

theorem sum_taken (h : Reachable (step m) (start tmp next value calls) s) (v : Int) :
    ∑ t, (s.locals t).taken v = s.shared.dequeued.count v := by
  refine Reachable.invariant
    (I := fun s => ∑ t, (s.locals t).taken v = s.shared.dequeued.count v) ?_ ?_ h
  · simp [start, Thread.start, Thread.taken, At.taken, Queue.init]
  · intro s t x ih hstep
    have hsum := ThreadSums.sum_update (Thread.taken v) s.locals t x.1
    have hmoves := (step_moves hstep).taken v
    simp only [Thread.taken, step_returned hstep, List.count_append] at hsum ih ⊢
    simp only [State.set]
    omega

theorem fifo (h : Reachable (step m) (start tmp next value calls) s) :
    s.shared.dequeued <+: s.shared.enqueued ∧
      (∀ v, ∑ t, (s.locals t).taken v = s.shared.dequeued.count v) ∧
      (∀ t seen, .empty seen ∈ (s.locals t).returned → seen.linked = seen.taken) ∧
      ∀ t a, (s.locals t).point.accesses = some a → s.shared.live a = true := by
  obtain ⟨nodes, hinv⟩ := reached h
  exact ⟨⟨_, hinv.linked.content.symm⟩, sum_taken h, hinv.empty,
    fun _ _ ha => hinv.accesses_live ha⟩

def counting : Allocator where
  malloc q := if q.live q.mallocs then none else some q.mallocs
  fresh {q a} h := by
    split at h
    · cases h
    · obtain rfl := Option.some.inj h
      simpa using ‹¬q.live q.mallocs = true›

def oneValue : Fin 2 → List Call :=
  fun t => if t.val = 0 then [.enqueue 7] else [.dequeue, .dequeue]

-- The node is taken, and the node `tail` refers to is freed, before `tail` moves on.
theorem fifo_oneValue : ∃ s,
    Reachable (step counting) (start 0 (fun _ => none) (fun _ => 0) oneValue) s ∧
    (s.locals 0).point = .enqueue (.moveTail 1) 7 ∧ s.shared.live s.shared.tail = false ∧
    (s.locals 1).returned = [.value 7, .empty ⟨[7], [7]⟩] ∧
      s.shared.dequeued <+: s.shared.enqueued ∧
      (∀ v, ∑ t, (s.locals t).taken v = s.shared.dequeued.count v) ∧
      (∀ t seen, .empty seen ∈ (s.locals t).returned → seen.linked = seen.taken) ∧
      ∀ t a, (s.locals t).point.accesses = some a → s.shared.live a = true := by
  obtain ⟨x, y, hx, hy, hpoint, hlive, hreturned⟩ : ∃ x y,
      solo (step counting) 7
        (Thread.start [.enqueue 7], Queue.init 0 (fun _ => none) (fun _ => 0)) = some x ∧
      solo (step counting) 15 (Thread.start [.dequeue, .dequeue], x.2) = some y ∧
      x.1.point = .enqueue (.moveTail 1) 7 ∧ y.2.live y.2.tail = false ∧
      y.1.returned = [.value 7, .empty ⟨[7], [7]⟩] :=
    ⟨_, _, rfl, rfl, rfl, rfl, rfl⟩
  have hfirst : Reachable (step counting) (start 0 (fun _ => none) (fun _ => 0) oneValue)
      ((start 0 (fun _ => none) (fun _ => 0) oneValue).set 0 x) :=
    Reachable.runs Relation.ReflTransGen.refl hx
  have hsecond := hfirst.runs (t := 1) hy
  refine ⟨_, hsecond, ?_, hlive, ?_, fifo hsecond⟩
  · rw [State.set_locals_of_ne _ (by decide), State.set_locals_self]
    exact hpoint
  · rw [State.set_locals_self]
    exact hreturned

end Mcqueue
