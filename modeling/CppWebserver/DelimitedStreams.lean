import Mathlib.Data.List.Infix
import Mathlib.Data.List.TakeWhile
import Mathlib.Data.List.Flatten

/-!
# Reading a delimited stream in pieces

A stream arrives in pieces. A reader keeps what it has received and stops as
soon as that ends with a terminator; it looks only after a whole piece, so where
it stops depends on the cut.
-/

namespace CppWebserver.DelimitedStreams

variable {α : Type*} [DecidableEq α]

/-- What a reader holds, and whether the terminator has stopped it. -/
@[ext]
structure Gathering (α : Type*) where
  text : List α
  closed : Bool

/-- A reader that has received nothing. -/
def Gathering.start : Gathering α := ⟨[], false⟩

/-- One more piece. A stopped reader takes nothing. -/
def Gathering.add (t : List α) (g : Gathering α) (c : List α) : Gathering α :=
  if g.closed then g else ⟨g.text ++ c, decide (t <:+ g.text ++ c)⟩

def gather (t : List α) (g : Gathering α) (cs : List (List α)) : Gathering α :=
  cs.foldl (Gathering.add t) g

@[simp] theorem gather_nil (t : List α) (g : Gathering α) : gather t g [] = g := rfl

theorem gather_cons (t : List α) (g : Gathering α) (c : List α) (cs : List (List α)) :
    gather t g (c :: cs) = gather t (g.add t c) cs := rfl

theorem gather_append (t : List α) (g : Gathering α) (cs ds : List (List α)) :
    gather t g (cs ++ ds) = gather t (gather t g cs) ds := List.foldl_append

theorem add_of_open (t acc c : List α) :
    Gathering.add t ⟨acc, false⟩ c = ⟨acc ++ c, decide (t <:+ acc ++ c)⟩ := rfl

theorem gather_of_closed (t : List α) {g : Gathering α} (h : g.closed = true)
    (cs : List (List α)) : gather t g cs = g := by
  induction cs with
  | nil => rfl
  | cons c cs ih =>
    have ha : g.add t c = g := by simp [Gathering.add, h]
    rw [gather_cons, ha, ih]

/-- An open reader holds every piece it was given. -/
theorem gather_text_of_open (t : List α) (acc : List α) (cs : List (List α))
    (h : (gather t ⟨acc, false⟩ cs).closed = false) :
    (gather t ⟨acc, false⟩ cs).text = acc ++ cs.flatten := by
  induction cs generalizing acc with
  | nil => simp
  | cons c cs ih =>
    rw [gather_cons, add_of_open] at h ⊢
    by_cases ht : t <:+ acc ++ c
    · rw [decide_eq_true ht, gather_of_closed t rfl] at h
      cases h
    · rw [decide_eq_false ht] at h ⊢
      rw [ih _ h, List.flatten_cons, List.append_assoc]

/-- A reader never forgets. -/
theorem prefix_gather_text (t : List α) (g : Gathering α) (cs : List (List α)) :
    g.text <+: (gather t g cs).text := by
  induction cs generalizing g with
  | nil => exact List.prefix_rfl
  | cons c cs ih =>
    refine List.IsPrefix.trans ?_ (ih (g.add t c))
    rw [Gathering.add]
    split
    · exact List.prefix_rfl
    · exact List.prefix_append _ _

/-- A reader never holds more than it was given. -/
theorem length_gather_text_le (t : List α) (g : Gathering α) (cs : List (List α)) :
    (gather t g cs).text.length ≤ g.text.length + cs.flatten.length := by
  induction cs generalizing g with
  | nil => simp
  | cons c cs ih =>
    have hadd : (g.add t c).text.length ≤ g.text.length + c.length := by
      rw [Gathering.add]
      split <;> simp
    have := ih (g.add t c)
    rw [gather_cons, List.flatten_cons, List.length_append]
    omega

/-- The terminator ends the text exactly of the stopped readers. -/
def Gathering.Faithful (t : List α) (g : Gathering α) : Prop := g.closed = true ↔ t <:+ g.text

omit [DecidableEq α] in
theorem faithful_start {t : List α} (ht : t ≠ []) : Gathering.start.Faithful t := by
  simp [Gathering.Faithful, Gathering.start, ht]

theorem faithful_gather {t : List α} {g : Gathering α} (h : g.Faithful t)
    (cs : List (List α)) : (gather t g cs).Faithful t := by
  induction cs generalizing g with
  | nil => exact h
  | cons c cs ih =>
    refine ih ?_
    rw [Gathering.add]
    split
    · exact h
    · simp [Gathering.Faithful]

/-- The reader stops exactly when the terminator ends what some initial run of
the pieces adds up to. -/
theorem gather_closed_iff {t acc : List α} (hacc : ¬ t <:+ acc) (cs : List (List α)) :
    (gather t ⟨acc, false⟩ cs).closed = true ↔
      ∃ k, t <:+ acc ++ (cs.take k).flatten := by
  induction cs generalizing acc with
  | nil => simp [hacc]
  | cons c cs ih =>
    rw [gather_cons, add_of_open]
    by_cases ht : t <:+ acc ++ c
    · rw [decide_eq_true ht, gather_of_closed t rfl]
      exact ⟨fun _ => ⟨1, by simpa using ht⟩, fun _ => rfl⟩
    · rw [decide_eq_false ht, ih ht]
      constructor
      · rintro ⟨k, hk⟩
        exact ⟨k + 1, by simpa using hk⟩
      · rintro ⟨k, hk⟩
        cases k with
        | zero => exact absurd (by simpa using hk) hacc
        | succ k => exact ⟨k, by simpa using hk⟩

/-- The piece that stops a reader. -/
theorem exists_closing_piece {t acc : List α} {cs : List (List α)}
    (h : (gather t ⟨acc, false⟩ cs).closed = true) :
    ∃ cs₀ c cs₁, cs = cs₀ ++ c :: cs₁ ∧ (gather t ⟨acc, false⟩ cs₀).closed = false ∧
      t <:+ acc ++ cs₀.flatten ++ c := by
  induction cs generalizing acc with
  | nil => cases h
  | cons c cs ih =>
    by_cases ht : t <:+ acc ++ c
    · exact ⟨[], c, cs, rfl, rfl, by simpa using ht⟩
    · rw [gather_cons, add_of_open, decide_eq_false ht] at h
      obtain ⟨cs₀, d, cs₁, rfl, hopen, hsuf⟩ := ih h
      refine ⟨c :: cs₀, d, cs₁, rfl, ?_, by simpa [List.append_assoc] using hsuf⟩
      rw [gather_cons, add_of_open, decide_eq_false ht]
      exact hopen

/-- A reader that is stopped by a piece holds the pieces up to this one. -/
theorem gather_of_closing_piece {t c : List α} {cs₀ : List (List α)} (cs₁ : List (List α))
    (hopen : (gather t .start cs₀).closed = false) (hends : t <:+ cs₀.flatten ++ c) :
    gather t .start (cs₀ ++ c :: cs₁) = ⟨cs₀.flatten ++ c, true⟩ := by
  have hfront : gather t .start cs₀ = ⟨cs₀.flatten, false⟩ := by
    have htext : (gather t .start cs₀).text = cs₀.flatten := gather_text_of_open t [] cs₀ hopen
    rw [← htext, ← hopen]
  rw [gather_append, hfront, gather_cons, add_of_open, decide_eq_true hends,
    gather_of_closed t rfl]

theorem gather_of_empty_pieces {t acc : List α} (hacc : ¬ t <:+ acc) {cs : List (List α)}
    (h : ∀ c ∈ cs, c = []) : gather t ⟨acc, false⟩ cs = ⟨acc, false⟩ := by
  induction cs with
  | nil => rfl
  | cons c cs ih =>
    have hc : c = [] := h c List.mem_cons_self
    subst hc
    rw [gather_cons, add_of_open, List.append_nil, decide_eq_false hacc]
    exact ih (fun d hd => h d (List.mem_cons_of_mem _ hd))

end CppWebserver.DelimitedStreams
