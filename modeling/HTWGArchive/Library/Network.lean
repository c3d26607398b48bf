import Mathlib.Data.List.Perm.Basic
import Mathlib.Tactic.Cases

namespace Network

variable {A M : Type*}

structure Packet (A M : Type*) where
  src : A
  dst : A
  payload : M
  deriving DecidableEq, Repr

variable [DecidableEq A]

def onChannel (a b : A) (p : Packet A M) : Bool :=
  p.src = a && p.dst = b

def channel (net : List (Packet A M)) (a b : A) : List M :=
  (net.filter (onChannel a b)).map Packet.payload

-- The oldest packet of the channel leaves the network.
def deliver (a b : A) : List (Packet A M) → Option (M × List (Packet A M))
  | [] => none
  | p :: net =>
    if onChannel a b p then some (p.payload, net)
    else (deliver a b net).map (fun r => (r.1, p :: r.2))

section Deliver

variable {a b : A} {m : M} {net net' : List (Packet A M)}

theorem deliver_split (h : deliver a b net = some (m, net')) :
    ∃ pre post, net = pre ++ ⟨a, b, m⟩ :: post ∧ net' = pre ++ post ∧
      ∀ p ∈ pre, onChannel a b p = false := by
  induction net generalizing net' with
  | nil => cases h
  | cons p net ih =>
    rw [deliver] at h
    cases hp : onChannel a b p with
    | true =>
      rw [if_pos hp] at h
      obtain ⟨rfl, rfl⟩ := Prod.mk.inj (Option.some_inj.mp h)
      simp only [onChannel, Bool.and_eq_true, decide_eq_true_eq] at hp
      obtain ⟨rfl, rfl⟩ := hp
      exact ⟨[], net, rfl, rfl, by simp⟩
    | false =>
      simp only [hp, Bool.false_eq_true, if_false, Option.map_eq_some_iff, Prod.mk.injEq,
        Prod.exists] at h
      obtain ⟨m', rest, hrest, rfl, rfl⟩ := h
      obtain ⟨pre, post, hnet, hnet', hpre⟩ := ih hrest
      refine ⟨p :: pre, post, by rw [hnet]; rfl, by rw [hnet']; rfl, ?_⟩
      rw [List.forall_mem_cons]
      exact ⟨hp, hpre⟩

theorem deliver_perm (h : deliver a b net = some (m, net')) :
    net.Perm (⟨a, b, m⟩ :: net') := by
  obtain ⟨pre, post, rfl, rfl, _⟩ := deliver_split h
  exact List.perm_middle

theorem deliver_mem (h : deliver a b net = some (m, net')) : ⟨a, b, m⟩ ∈ net :=
  (deliver_perm h).symm.subset List.mem_cons_self

theorem deliver_sublist (h : deliver a b net = some (m, net')) : net'.Sublist net := by
  obtain ⟨pre, post, rfl, rfl, _⟩ := deliver_split h
  exact (List.Sublist.refl pre).append (List.sublist_cons_self _ post)

theorem deliver_countP (h : deliver a b net = some (m, net')) (p : Packet A M → Bool) :
    net.countP p = net'.countP p + if p ⟨a, b, m⟩ then 1 else 0 := by
  rw [(deliver_perm h).countP_eq, List.countP_cons]

theorem onChannel_self (a b : A) (m : M) : onChannel a b ⟨a, b, m⟩ = true := by
  simp [onChannel]

theorem onChannel_other {c d : A} (hne : (c, d) ≠ (a, b)) (m : M) :
    onChannel c d ⟨a, b, m⟩ = false := by
  rw [Bool.eq_false_iff]
  intro heq
  simp only [onChannel, Bool.and_eq_true, decide_eq_true_eq] at heq
  exact hne (Prod.ext heq.1.symm heq.2.symm)

theorem channel_append (net net' : List (Packet A M)) (a b : A) :
    channel (net ++ net') a b = channel net a b ++ channel net' a b := by
  simp [channel]

theorem exists_deliver {ms : List M} (h : channel net a b = m :: ms) :
    ∃ net', deliver a b net = some (m, net') := by
  induction net with
  | nil => cases h
  | cons p net ih =>
    rw [deliver]
    cases hp : onChannel a b p with
    | true =>
      rw [channel, List.filter_cons_of_pos hp, List.map_cons] at h
      rw [(List.cons.inj h).1]
      exact ⟨net, rfl⟩
    | false =>
      rw [channel, List.filter_cons_of_neg (Bool.not_eq_true _ ▸ hp)] at h
      obtain ⟨net', hdel⟩ := ih h
      exact ⟨p :: net', by simp [hdel]⟩

theorem channel_deliver (h : deliver a b net = some (m, net')) :
    channel net a b = m :: channel net' a b := by
  obtain ⟨pre, post, rfl, rfl, hpre⟩ := deliver_split h
  have hnone : pre.filter (onChannel a b) = [] := by
    rw [List.filter_eq_nil_iff]
    intro p hp
    rw [hpre p hp]
    exact Bool.false_ne_true
  simp [channel, hnone, onChannel_self]

theorem channel_deliver_other {c d : A} (h : deliver a b net = some (m, net'))
    (hne : (c, d) ≠ (a, b)) : channel net' c d = channel net c d := by
  obtain ⟨pre, post, rfl, rfl, _⟩ := deliver_split h
  simp [channel, onChannel_other hne]

theorem of_mem_channel (h : m ∈ channel net a b) : ⟨a, b, m⟩ ∈ net := by
  obtain ⟨p, hp, rfl⟩ := List.mem_map.mp h
  obtain ⟨hmem, hon⟩ := List.mem_filter.mp hp
  simp only [onChannel, Bool.and_eq_true, decide_eq_true_eq] at hon
  obtain ⟨rfl, rfl⟩ := hon
  exact hmem

end Deliver

end Network
