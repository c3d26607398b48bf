import Mathlib.Data.List.Infix
import Mathlib.Logic.Function.Basic

namespace TicketQueue

variable {T : Type*}

-- Where a thread is between two tickets.
inductive Phase where
  | outside
  | waiting (ticket : ℕ)
  | serving
  deriving DecidableEq, Repr

-- `grabs` are the threads in the order of their tickets, `entries` those that have been served.
structure Inv (phase : T → Phase) (ticket turn : ℕ) (grabs entries : List T) : Prop where
  tickets : grabs.length = ticket
  waiting : ∀ t a, phase t = .waiting a → grabs[a]? = some t ∧ entries.length ≤ a
  held : ∀ a, entries.length ≤ a → a < ticket → ∃ t, phase t = .waiting a
  serving : ∀ t, phase t = .serving → grabs[turn]? = some t ∧ entries.length = turn + 1
  idle : (∀ t, phase t ≠ .serving) → entries.length = turn
  fifo : entries <+: grabs

variable {phase : T → Phase} {ticket turn a : ℕ} {grabs entries : List T} {t u : T}

theorem Inv.start (hphase : ∀ t, phase t = .outside) : Inv phase 0 0 [] [] where
  tickets := rfl
  waiting := fun t a h => by rw [hphase] at h; cases h
  held := fun a _ h => absurd h (Nat.not_lt_zero a)
  serving := fun t h => by rw [hphase] at h; cases h
  idle := fun _ => rfl
  fifo := List.prefix_rfl

theorem Inv.exclusive (h : Inv phase ticket turn grabs entries) (ht : phase t = .serving)
    (hu : phase u = .serving) : t = u :=
  Option.some.inj ((h.serving t ht).1.symm.trans (h.serving u hu).1)

-- A thread whose ticket is not beyond `turn` is the next one, and nobody is being served.
theorem Inv.next (h : Inv phase ticket turn grabs entries) (ht : phase t = .waiting a)
    (ha : a ≤ turn) : a = turn ∧ entries.length = turn ∧ ∀ u, phase u ≠ .serving := by
  have hle := (h.waiting t a ht).2
  have hnone : ∀ u, phase u ≠ .serving := by
    intro u hu
    have hlen := (h.serving u hu).2
    omega
  have hlen := h.idle hnone
  exact ⟨by omega, hlen, hnone⟩

theorem Inv.lt_ticket (h : Inv phase ticket turn grabs entries) (ht : phase t = .waiting a) :
    a < ticket := by
  have hget := (h.waiting t a ht).1
  rw [← h.tickets]
  exact (List.getElem?_eq_some_iff.mp hget).1

variable [DecidableEq T]

theorem Inv.grab (h : Inv phase ticket turn grabs entries) (ht : phase t = .outside) :
    Inv (Function.update phase t (.waiting ticket)) (ticket + 1) turn (grabs ++ [t]) entries where
  tickets := by rw [List.length_append, h.tickets, List.length_singleton]
  waiting := by
    intro u a hu
    rcases eq_or_ne u t with rfl | hne
    · rw [Function.update_self] at hu
      cases hu
      refine ⟨by rw [← h.tickets, List.getElem?_concat_length], ?_⟩
      rw [← h.tickets]
      exact h.fifo.length_le
    · rw [Function.update_of_ne hne] at hu
      obtain ⟨hget, hle⟩ := h.waiting u a hu
      have hlt := h.lt_ticket hu
      rw [← h.tickets] at hlt
      exact ⟨by rw [List.getElem?_append_left hlt, hget], hle⟩
  held := by
    intro a hle hlt
    rcases Nat.lt_or_eq_of_le (Nat.le_of_lt_succ hlt) with hlt | rfl
    · obtain ⟨u, hu⟩ := h.held a hle hlt
      have hne : u ≠ t := by
        rintro rfl
        rw [ht] at hu
        cases hu
      exact ⟨u, by rw [Function.update_of_ne hne, hu]⟩
    · exact ⟨t, Function.update_self _ _ _⟩
  serving := by
    intro u hu
    rcases eq_or_ne u t with rfl | hne
    · rw [Function.update_self] at hu
      cases hu
    · rw [Function.update_of_ne hne] at hu
      obtain ⟨hget, hlen⟩ := h.serving u hu
      have hlt := (List.getElem?_eq_some_iff.mp hget).1
      exact ⟨by rw [List.getElem?_append_left hlt, hget], hlen⟩
  idle := by
    intro hnone
    apply h.idle
    intro u hu
    rcases eq_or_ne u t with rfl | hne
    · rw [ht] at hu
      cases hu
    · exact hnone u (by rw [Function.update_of_ne hne, hu])
  fifo := h.fifo.trans (List.prefix_append _ _)

theorem Inv.enter (h : Inv phase ticket turn grabs entries) (ht : phase t = .waiting a)
    (ha : a ≤ turn) :
    Inv (Function.update phase t .serving) ticket turn grabs (entries ++ [t]) := by
  obtain ⟨rfl, hlen, hnone⟩ := h.next ht ha
  have hget := (h.waiting t a ht).1
  refine ⟨h.tickets, ?_, ?_, ?_, ?_, ?_⟩
  · intro u b hu
    rcases eq_or_ne u t with rfl | hne
    · rw [Function.update_self] at hu
      cases hu
    · rw [Function.update_of_ne hne] at hu
      obtain ⟨hb, hle⟩ := h.waiting u b hu
      refine ⟨hb, ?_⟩
      have hother : b ≠ a := by
        rintro rfl
        exact hne (Option.some.inj (hb.symm.trans hget))
      rw [List.length_append, List.length_singleton]
      omega
  · intro b hle hlt
    rw [List.length_append, List.length_singleton] at hle
    obtain ⟨u, hu⟩ := h.held b (by omega) hlt
    have hne : u ≠ t := by
      rintro rfl
      rw [ht] at hu
      cases hu
      omega
    exact ⟨u, by rw [Function.update_of_ne hne, hu]⟩
  · intro u hu
    rcases eq_or_ne u t with rfl | hne
    · exact ⟨hget, by rw [List.length_append, List.length_singleton, hlen]⟩
    · rw [Function.update_of_ne hne] at hu
      exact absurd hu (hnone u)
  · intro hall
    exact absurd (Function.update_self _ _ _) (hall t)
  · obtain ⟨rest, rfl⟩ := h.fifo
    rw [← hlen, List.getElem?_append_right (Nat.le_refl _), Nat.sub_self] at hget
    cases rest with
    | nil => cases hget
    | cons x rest =>
      obtain rfl : x = t := by simpa using hget
      exact ⟨rest, by simp⟩

theorem Inv.release (h : Inv phase ticket turn grabs entries) (ht : phase t = .serving) :
    Inv (Function.update phase t .outside) ticket (turn + 1) grabs entries := by
  have hlen := (h.serving t ht).2
  have hother : ∀ u, u ≠ t → phase u ≠ .serving := fun u hne hu => hne (h.exclusive hu ht)
  have hwaiting : ∀ u a, Function.update phase t .outside u = .waiting a ↔ phase u = .waiting a := by
    intro u a
    rcases eq_or_ne u t with rfl | hne
    · simp [ht]
    · rw [Function.update_of_ne hne]
  have hnone : ∀ u, Function.update phase t .outside u ≠ .serving := by
    intro u
    rcases eq_or_ne u t with rfl | hne
    · simp
    · rw [Function.update_of_ne hne]
      exact hother u hne
  refine ⟨h.tickets, ?_, ?_, ?_, fun _ => hlen, h.fifo⟩
  · intro u a hu
    exact h.waiting u a ((hwaiting u a).mp hu)
  · intro a hle hlt
    obtain ⟨u, hu⟩ := h.held a hle hlt
    exact ⟨u, (hwaiting u a).mpr hu⟩
  · exact fun u hu => absurd hu (hnone u)

theorem Inv.keep (h : Inv phase ticket turn grabs entries) {q : Phase} (hq : q = phase t) :
    Inv (Function.update phase t q) ticket turn grabs entries := by
  rw [hq, Function.update_eq_self]
  exact h

end TicketQueue
