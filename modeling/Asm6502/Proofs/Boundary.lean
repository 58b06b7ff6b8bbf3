/-!
# Runs and what ends them

A run of a list is a longest beginning whose members all have some property.
Scanners take runs of characters and readers take runs of tokens, and in both cases
a run is known once its members are and something behind it is known to end it.

## Main results

* `takeWhile_append_of_boundary`, `dropWhile_append_of_boundary` — a run and what is
  behind it, if the first member behind it does not belong to it.
* `append_inj_of_boundary` — a list comes apart into a run and what is behind it in one way.
* `append_cons_inj_of_not_mem` — and into what stands in front of a separator and behind it.
* `head?_dropWhile_eq_false` — what is behind a run does not belong to it.
-/

namespace Asm6502

variable {α : Type} {p : α → Bool} {body rest : List α}

theorem takeWhile_append_of_boundary (inside : ∀ a ∈ body, p a = true)
    (boundary : ∀ a ∈ rest.head?, p a = false) : (body ++ rest).takeWhile p = body := by
  rw [List.takeWhile_append_of_pos inside]
  cases rest with
  | nil => simp
  | cons a rest => simp [boundary a rfl]

theorem dropWhile_append_of_boundary (inside : ∀ a ∈ body, p a = true)
    (boundary : ∀ a ∈ rest.head?, p a = false) : (body ++ rest).dropWhile p = rest := by
  rw [List.dropWhile_append_of_pos inside]
  cases rest with
  | nil => rfl
  | cons a rest => simp [boundary a rfl]

/-- A list comes apart into a run and what is behind it in one way only. -/
theorem append_inj_of_boundary {body' rest' : List α} (inside : ∀ a ∈ body, p a = true)
    (boundary : ∀ a ∈ rest.head?, p a = false) (inside' : ∀ a ∈ body', p a = true)
    (boundary' : ∀ a ∈ rest'.head?, p a = false) (h : body ++ rest = body' ++ rest') :
    body = body' ∧ rest = rest' := by
  constructor
  · rw [← takeWhile_append_of_boundary inside boundary, h,
      takeWhile_append_of_boundary inside' boundary']
  · rw [← dropWhile_append_of_boundary inside boundary, h,
      dropWhile_append_of_boundary inside' boundary']

/-- So it does at the first place of a separator. -/
theorem append_cons_inj_of_not_mem [DecidableEq α] {a : α} {body' rest' : List α}
    (inside : a ∉ body) (inside' : a ∉ body') (h : body ++ a :: rest = body' ++ a :: rest') :
    body = body' ∧ rest = rest' := by
  have hrun {body : List α} (inside : a ∉ body) : ∀ b ∈ body, decide (b ≠ a) = true := by
    intro b hb
    rw [decide_eq_true_iff]
    rintro rfl
    exact inside hb
  have hend (rest : List α) : ∀ b ∈ (a :: rest).head?, decide (b ≠ a) = false := by
    rintro b ⟨⟩
    exact decide_eq_false fun hne => hne rfl
  obtain ⟨hbody, hrest⟩ := append_inj_of_boundary (hrun inside) (hend rest) (hrun inside')
    (hend rest') h
  exact ⟨hbody, (List.cons.inj hrest).2⟩

/-- A run goes on as long as it can. -/
theorem head?_dropWhile_eq_false (p : α → Bool) (as : List α) {a : α}
    (h : a ∈ (as.dropWhile p).head?) : p a = false := by
  have hhead := List.head?_dropWhile_not p as
  rw [Option.mem_def.1 h] at hhead
  simpa using hhead

end Asm6502
