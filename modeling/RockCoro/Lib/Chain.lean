import Mathlib.Data.List.Nodup
import Mathlib.Logic.Function.Basic
import Mathlib.Logic.Relation

/-!
# Null-terminated chains

`Linked next h l` says that following the links `next` from `h` visits the nodes `l` and then ends.
The end makes a chain free of repetitions and unique for its head, so that the list speaks for the
memory. A write to a link changes the chains that own the written node and no others.
-/

namespace Chain

variable {α : Type*} {next next' : α → Option α} {h : Option α} {l l₁ l₂ : List α} {a c t : α}

/-- Following `next` from `h` visits the nodes `l` and ends. -/
def Linked (next : α → Option α) : Option α → List α → Prop
  | h, [] => h = none
  | h, a :: l => h = some a ∧ Linked next (next a) l

@[simp] theorem linked_nil : Linked next h [] ↔ h = none := Iff.rfl

@[simp] theorem linked_cons :
    Linked next h (a :: l) ↔ h = some a ∧ Linked next (next a) l := Iff.rfl

/-- The head of a linked list is its first node. -/
theorem Linked.head (hl : Linked next h l) : h = l.head? := by
  cases l with
  | nil => exact hl
  | cons a l => exact hl.1

/-- The chain from a node is unique. -/
theorem Linked.unique (h₁ : Linked next h l₁) (h₂ : Linked next h l₂) : l₁ = l₂ := by
  induction l₁ generalizing h l₂ with
  | nil =>
    obtain rfl := h₁
    cases l₂ with
    | nil => rfl
    | cons b l₂ => exact absurd h₂.1 (by simp)
  | cons a l₁ ih =>
    obtain ⟨rfl, h₁⟩ := h₁
    cases l₂ with
    | nil => exact absurd h₂ (by simp)
    | cons b l₂ =>
      obtain ⟨hab, h₂⟩ := h₂
      obtain rfl := Option.some.inj hab
      rw [ih h₁ h₂]

/-- The rest of a chain is the chain from its first node. -/
theorem Linked.suffix (hl : Linked next h (l₁ ++ a :: l₂)) : Linked next (some a) (a :: l₂) := by
  induction l₁ generalizing h with
  | nil => exact ⟨rfl, hl.2⟩
  | cons b l₁ ih => exact ih hl.2

/-- A chain that ends does not repeat a node. -/
theorem Linked.nodup (hl : Linked next h l) : l.Nodup := by
  induction l generalizing h with
  | nil => exact List.nodup_nil
  | cons a l ih =>
    refine List.nodup_cons.2 ⟨fun hm => ?_, ih hl.2⟩
    obtain ⟨l₁, l₂, rfl⟩ := List.append_of_mem hm
    have hwhole : Linked next (some a) (a :: (l₁ ++ a :: l₂)) := ⟨rfl, hl.2⟩
    have hlen := congrArg List.length ((Linked.suffix hl.2).unique hwhole)
    simp only [List.length_cons, List.length_append] at hlen
    omega

/-- Following a chain stays in it. -/
theorem Linked.mem_of_next (hl : Linked next h l) (ha : a ∈ l) (hc : next a = some c) : c ∈ l := by
  obtain ⟨l₁, l₂, rfl⟩ := List.append_of_mem ha
  have hrest := hl.suffix.2
  rw [hc] at hrest
  cases l₂ with
  | nil => cases hrest
  | cons b l₂ =>
    obtain ⟨⟨⟩, -⟩ := hrest
    exact List.mem_append_right _ (List.mem_cons_of_mem _ List.mem_cons_self)

/-- So does following it any number of times. -/
theorem Linked.mem_of_reach (hl : Linked next h l) (ha : a ∈ l)
    (hac : Relation.ReflTransGen (fun a b => next a = some b) a c) : c ∈ l := by
  induction hac with
  | refl => exact ha
  | tail _ hnext ih => exact hl.mem_of_next ih hnext

/-- Following a chain visits all of it. -/
theorem Linked.reach (hl : Linked next (some a) l) (hc : c ∈ l) :
    Relation.ReflTransGen (fun a b => next a = some b) a c := by
  induction l generalizing a with
  | nil => cases hc
  | cons b l ih =>
    obtain ⟨hab, hrest⟩ := hl
    obtain rfl := Option.some.inj hab
    rcases List.mem_cons.1 hc with rfl | hc
    · exact .refl
    · obtain ⟨d, hd⟩ : ∃ d, next a = some d := by
        rw [hrest.head]
        exact Option.isSome_iff_exists.1 (by simpa using List.ne_nil_of_mem hc)
      exact .head hd (ih (hd ▸ hrest) hc)

/-- A chain is the business of its own nodes. -/
theorem Linked.congr (hl : Linked next h l) (hn : ∀ a ∈ l, next' a = next a) :
    Linked next' h l := by
  induction l generalizing h with
  | nil => exact hl
  | cons a l ih =>
    refine ⟨hl.1, ?_⟩
    rw [hn a List.mem_cons_self]
    exact ih hl.2 fun b hb => hn b (List.mem_cons_of_mem _ hb)

/-- Writing a link outside the chain. -/
theorem Linked.update [DecidableEq α] {v : Option α} (hl : Linked next h l) (hc : c ∉ l) :
    Linked (Function.update next c v) h l :=
  hl.congr fun _ ha => Function.update_of_ne (ne_of_mem_of_not_mem ha hc) _ _

/-- The last node's link is null. -/
theorem Linked.next_last (hl : Linked next h (l ++ [t])) : next t = none := hl.suffix.2

/-- The link of the last node is written to a new last node. -/
theorem Linked.concat [DecidableEq α] (hl : Linked next h (l ++ [t])) (hc : c ∉ l ++ [t])
    (hnull : next c = none) :
    Linked (Function.update next t (some c)) h (l ++ [t] ++ [c]) := by
  induction l generalizing h with
  | nil =>
    obtain ⟨rfl, -⟩ := hl
    have htc : c ≠ t := by simpa using hc
    simpa [htc] using hnull
  | cons a l ih =>
    have hat : a ≠ t := by
      rintro rfl
      simpa using hl.nodup
    refine ⟨hl.1, ?_⟩
    rw [Function.update_of_ne hat]
    exact ih hl.2 fun hm => hc (List.mem_cons_of_mem _ hm)

end Chain
