import Mathlib.Data.List.Basic
import Mathlib.Data.List.Infix
import Mathlib.Logic.Function.Basic
import Mathlib.Tactic.Common

/-!
# Trees of paths, and logs of edits

A tree says what stands at each path. An edit writes one path, takes away a path with all that lies below it,
or, in two halves that carry the same tag, takes such a part of the tree to another place. A log of edits is
run from its beginning. Two writes of one path can be left out of a log if the first has changed something,
the second restores it, and no edit between them reaches the path in another way (`run_cancel`).
-/

namespace PathTree

variable {α κ : Type*} [DecidableEq α]

/-- What stands at each path. -/
abbrev Tree (α κ : Type*) := List α → Option κ

/-- The path `p` is `a`, or lies below it. -/
def Under (sep : α) (a p : List α) : Prop := p = a ∨ a ++ [sep] <+: p

instance (sep : α) (a p : List α) : Decidable (Under sep a p) := inferInstanceAs (Decidable (_ ∨ _))

omit [DecidableEq α] in
/-- What lies below one path has a counterpart below every other. -/
theorem Under.moved {sep : α} {b p : List α} (h : Under sep b p) (a : List α) :
    Under sep a (a ++ p.drop b.length) := by
  rcases h with rfl | ⟨rest, rfl⟩
  · left
    rw [List.drop_length, List.append_nil]
  · right
    rw [List.append_assoc, List.drop_left, ← List.append_assoc]
    exact List.prefix_append _ _

/-- The tree without what stands at `a` or below it. -/
def prune (sep : α) (a : List α) (t : Tree α κ) : Tree α κ :=
  fun p => if Under sep a p then none else t p

/-- The tree with what stands at `a` or below it taken to `b`, in place of what stands there. -/
def graft (sep : α) (a b : List α) (t : Tree α κ) : Tree α κ :=
  fun p => if Under sep b p then t (a ++ p.drop b.length) else if Under sep a p then none else t p

/-! ## Edits -/

/-- A change of a tree. A part of the tree is lifted and put down by two edits with the same tag. -/
inductive Edit (α κ : Type*) where
  | write (p : List α) (v : Option κ)
  | prune (p : List α)
  | lift (tag : ℕ) (p : List α)
  | land (tag : ℕ) (p : List α)
  | skip

/-- A tree and the part of it that has been lifted. -/
structure State (α κ : Type*) where
  tree : Tree α κ
  lifted : Option (ℕ × List α)

namespace Edit

/-- The edit is carried out. A part that has not been lifted is not put down. -/
def apply (sep : α) (s : State α κ) : Edit α κ → State α κ
  | write p v => { s with tree := Function.update s.tree p v }
  | prune p => { s with tree := PathTree.prune sep p s.tree }
  | lift tag p => { s with lifted := some (tag, p) }
  | land tag p =>
    match s.lifted with
    | some (tag', a) => if tag' = tag then ⟨graft sep a p s.tree, none⟩ else s
    | none => s
  | skip => s

/-- The edit is about the path `x`, or about one that `x` lies below together with it. -/
def Touches (sep : α) (x : List α) : Edit α κ → Prop
  | write p _ => p = x
  | prune p | lift _ p | land _ p => Under sep p x
  | skip => False

instance (sep : α) (x : List α) : ∀ e : Edit α κ, Decidable (e.Touches sep x)
  | write p _ => inferInstanceAs (Decidable (p = x))
  | prune p | lift _ p | land _ p => inferInstanceAs (Decidable (Under sep p x))
  | skip => inferInstanceAs (Decidable False)

end Edit

/-- The edits of a log, from its beginning. -/
def run (sep : α) (s : State α κ) (log : List (Edit α κ)) : State α κ := log.foldl (Edit.apply sep) s

@[simp] theorem run_nil (sep : α) (s : State α κ) : run sep s [] = s := rfl

@[simp] theorem run_cons (sep : α) (s : State α κ) (e : Edit α κ) (log : List (Edit α κ)) :
    run sep s (e :: log) = run sep (e.apply sep s) log := rfl

theorem run_append (sep : α) (s : State α κ) (log log' : List (Edit α κ)) :
    run sep s (log ++ log') = run sep (run sep s log) log' := List.foldl_append

theorem run_concat (sep : α) (s : State α κ) (log : List (Edit α κ)) (e : Edit α κ) :
    run sep s (log ++ [e]) = e.apply sep (run sep s log) := by
  rw [run_append, run_cons, run_nil]

/-- Every edit of a log meets a condition on the state that it comes to. -/
def Each (sep : α) (P : State α κ → Edit α κ → Prop) : State α κ → List (Edit α κ) → Prop
  | _, [] => True
  | s, e :: log => P s e ∧ Each sep P (e.apply sep s) log

theorem each_append {sep : α} {P : State α κ → Edit α κ → Prop} {s : State α κ} {log log' : List (Edit α κ)} :
    Each sep P s (log ++ log') ↔ Each sep P s log ∧ Each sep P (run sep s log) log' := by
  induction log generalizing s with
  | nil => exact ⟨fun h => ⟨trivial, h⟩, And.right⟩
  | cons e log ih =>
    rw [List.cons_append, Each, Each, ih, run_cons, and_assoc]

/-! ## Edits elsewhere -/

/-- What has been lifted does not hold the path `x`. -/
def State.Clear (sep : α) (x : List α) (s : State α κ) : Prop := ∀ tag a, s.lifted = some (tag, a) → ¬ Under sep a x

variable {sep : α} {x : List α} {s s' : State α κ} {e : Edit α κ} {log : List (Edit α κ)}

omit [DecidableEq α] in
theorem State.Clear.of_none (h : s.lifted = none) : s.Clear sep x := fun tag a hsome => by
  rw [h] at hsome
  cases hsome

/-- An edit that touches no path over `x` lifts nothing over it. -/
theorem State.Clear.apply (h : s.Clear sep x) (he : ¬ e.Touches sep x ∨ ∃ v, e = .write x v) :
    (e.apply sep s).Clear sep x := by
  intro tag a hlifted
  cases e with
  | write p v => exact h tag a hlifted
  | prune p => exact h tag a hlifted
  | skip => exact h tag a hlifted
  | lift tag' p =>
    obtain ⟨-, rfl⟩ := Prod.mk.inj (Option.some.inj hlifted)
    rcases he with he | ⟨v, he⟩
    · exact he
    · cases he
  | land tag' p =>
    rw [Edit.apply] at hlifted
    split at hlifted
    · split at hlifted
      · cases hlifted
      · exact h tag a hlifted
    · exact h tag a hlifted

/-- An edit elsewhere leaves the path alone. -/
theorem tree_apply (h : s.Clear sep x) (he : ¬ e.Touches sep x) : (e.apply sep s).tree x = s.tree x := by
  cases e with
  | write p v => exact Function.update_of_ne (fun hx => he hx.symm) _ _
  | prune p => exact if_neg he
  | lift tag p => rfl
  | skip => rfl
  | land tag p =>
    rw [Edit.apply]
    split
    · rename_i tag' a hlifted
      split
      · exact (if_neg he).trans (if_neg (h tag' a hlifted))
      · rfl
    · rfl

/-- A log that reaches the path in no way but to write there what stands there leaves it alone. -/
theorem tree_run {b : Option κ} (h : s.Clear sep x) (hx : s.tree x = b)
    (hlog : ∀ e ∈ log, ¬ e.Touches sep x ∨ e = .write x b) : (run sep s log).tree x = b := by
  induction log generalizing s with
  | nil => exact hx
  | cons e log ih =>
    have he := hlog e List.mem_cons_self
    refine ih (h.apply (he.imp_right fun he => ⟨b, he⟩)) ?_ fun e' he' => hlog e' (List.mem_cons_of_mem _ he')
    rcases he with he | rfl
    · rw [tree_apply h he, hx]
    · exact Function.update_self _ _ _

/-! ## Edits that undo each other -/

/-- Two states that differ in what stands at `x` only. -/
structure Off (x : List α) (s' s : State α κ) : Prop where
  lifted_eq : s'.lifted = s.lifted
  tree_eq : ∀ p ≠ x, s'.tree p = s.tree p

theorem Off.write (sep : α) (s : State α κ) (x : List α) (v : Option κ) : Off x ((Edit.write x v).apply sep s) s :=
  ⟨rfl, fun _ hp => Function.update_of_ne hp _ _⟩

/-- The difference at `x` does not spread. -/
theorem Off.apply (h : Off x s' s) (hclear : s.Clear sep x) (e : Edit α κ) :
    Off x (e.apply sep s') (e.apply sep s) := by
  cases e with
  | write p v =>
    refine ⟨h.lifted_eq, fun q hq => ?_⟩
    simp only [Edit.apply, Function.update_apply]
    split
    · rfl
    · exact h.tree_eq q hq
  | prune p =>
    refine ⟨h.lifted_eq, fun q hq => ?_⟩
    simp only [Edit.apply, prune]
    split
    · rfl
    · exact h.tree_eq q hq
  | lift tag p => exact ⟨rfl, h.tree_eq⟩
  | skip => exact h
  | land tag p =>
    rw [Edit.apply, Edit.apply, h.lifted_eq]
    cases hlifted : s.lifted with
    | none => exact h
    | some l =>
      obtain ⟨tag', a⟩ := l
      simp only
      split
      · refine ⟨rfl, fun q hq => ?_⟩
        simp only [graft]
        split
        · -- what is read lies below the part that is moved, and `x` does not
          rename_i hunder
          refine h.tree_eq _ fun hx => hclear tag' a hlifted ?_
          rw [← hx]
          exact hunder.moved a
        · split
          · rfl
          · exact h.tree_eq q hq
      · exact h

/-- Nor does it spread in a log that touches no path over `x` but to write there. -/
theorem Off.run (h : Off x s' s) (hclear : s.Clear sep x)
    (hlog : ∀ e ∈ log, ¬ e.Touches sep x ∨ ∃ v, e = .write x v) : Off x (run sep s' log) (run sep s log) := by
  induction log generalizing s s' with
  | nil => exact h
  | cons e log ih =>
    exact ih (h.apply hclear e) (hclear.apply (hlog e List.mem_cons_self))
      fun e' he' => hlog e' (List.mem_cons_of_mem _ he')

/-- A write that is left out leaves a log as it has to be, if what the edits behind it have to meet does not depend on
what stands there. -/
theorem each_cancel {P : State α κ → Edit α κ → Prop} {Q : Edit α κ → Prop} {v : Option κ} (hlifted : s.lifted = none)
    (hQ : ∀ e, Q e → ¬ e.Touches sep x ∨ ∃ v, e = .write x v)
    (hlocal : ∀ s s' e, Off x s' s → Q e → P s' e → P s e) (hlog : ∀ e ∈ log, Q e)
    (h : Each sep P s (.write x v :: log)) : Each sep P s log := by
  have hclear : s.Clear sep x := .of_none hlifted
  have hoff := Off.write sep s x v
  replace h : Each sep P ((Edit.write x v).apply sep s) log := h.2
  generalize (Edit.write x v).apply sep s = s' at hoff h
  clear hlifted
  induction log generalizing s s' with
  | nil => trivial
  | cons e log ih =>
    have he := hlog e List.mem_cons_self
    have hclear' := hclear.apply (hQ e he)
    have hoff' := hoff.apply hclear e
    exact ⟨hlocal s s' e hoff he h.1, ih (fun e' he' => hlog e' (List.mem_cons_of_mem _ he')) hclear' _ hoff' h.2⟩

/-- A write that has changed something and a write that restores it can be left out of a log, if no edit between
them reaches the path, but for writes of what is restored. -/
theorem run_cancel {v b : Option κ} (hlifted : s.lifted = none) (hx : s.tree x = b)
    (hlog : ∀ e ∈ log, ¬ e.Touches sep x ∨ e = .write x b) :
    (Edit.write x b).apply sep (run sep ((Edit.write x v).apply sep s) log) = run sep s log := by
  have hoff' := (Off.write sep s x v).run (.of_none hlifted) fun e he => (hlog e he).imp_right fun he => ⟨b, he⟩
  have hx' := tree_run (.of_none hlifted) hx hlog
  generalize run sep ((Edit.write x v).apply sep s) log = r' at hoff'
  generalize run sep s log = r at hoff' hx'
  obtain ⟨t', l'⟩ := r'
  obtain ⟨t, l⟩ := r
  obtain rfl : l' = l := hoff'.lifted_eq
  refine congrArg (fun t => State.mk t l') (funext fun p => ?_)
  by_cases hp : p = x
  · rw [hp, Function.update_self]
    exact hx'.symm
  · rw [Function.update_of_ne hp]
    exact hoff'.tree_eq p hp

end PathTree
