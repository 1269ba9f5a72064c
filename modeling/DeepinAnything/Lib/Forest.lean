import Mathlib.Data.List.Basic
import Mathlib.Data.List.Infix
import Mathlib.Tactic.Common

/-!
# Ordered forests with named entries

A directory listing is a sequence of siblings, each a leaf or a node that owns a listing of its
own. `Forest` is that shape in first-child/next-sibling form. Entries are addressed by the list
of names that leads to them; an edit at an address is `modifyAt`, and `plug` puts a listing back
into the context of frames around it, so that an argument about one listing can be carried to the
whole forest.
-/

namespace OrderedForest

/-- A sequence of siblings, in order: `leaf` and `node` are the first of them, `next` the others. -/
inductive Forest (ν : Type*) where
  | nil
  | leaf (name : ν) (next : Forest ν)
  | node (name : ν) (kids next : Forest ν)
deriving DecidableEq, Repr

/-- What stands under a name: a leaf, or a node with its own siblings below it. -/
inductive Entry (ν : Type*) where
  | leaf
  | node (kids : Forest ν)
deriving DecidableEq, Repr

variable {ν : Type*}

/-- Is the entry a node? -/
def Entry.isNode : Entry ν → Bool
  | leaf => false
  | node _ => true

/-- The entries below an entry. -/
def Entry.kids : Entry ν → Forest ν
  | leaf => .nil
  | node k => k

namespace Forest

/-! ## Siblings -/

/-- The siblings of `a` followed by those of `b`. -/
def append : Forest ν → Forest ν → Forest ν
  | nil, b => b
  | leaf n a, b => leaf n (a.append b)
  | node n k a, b => node n k (a.append b)

instance : Append (Forest ν) := ⟨append⟩

@[simp] theorem nil_append (b : Forest ν) : nil ++ b = b := rfl

@[simp] theorem leaf_append (n : ν) (a b : Forest ν) : leaf n a ++ b = leaf n (a ++ b) := rfl

@[simp] theorem node_append (n : ν) (k a b : Forest ν) : node n k a ++ b = node n k (a ++ b) := rfl

@[simp] theorem append_nil (a : Forest ν) : a ++ nil = a := by
  induction a with
  | nil => rfl
  | leaf n a ih => simp [ih]
  | node n k a _ ih => simp [ih]

theorem append_assoc (a b c : Forest ν) : a ++ b ++ c = a ++ (b ++ c) := by
  induction a with
  | nil => rfl
  | leaf n a ih => simp [ih]
  | node n k a _ ih => simp [ih]

/-- The siblings `next` with the entry `e` named `n` in front. -/
def cons (n : ν) : Entry ν → Forest ν → Forest ν
  | .leaf, next => leaf n next
  | .node k, next => node n k next

@[simp] theorem cons_leaf (n : ν) (next : Forest ν) : cons n .leaf next = leaf n next := rfl

@[simp] theorem cons_node (n : ν) (k next : Forest ν) : cons n (.node k) next = node n k next := rfl

theorem cons_append (n : ν) (e : Entry ν) (a b : Forest ν) : cons n e a ++ b = cons n e (a ++ b) := by
  cases e <;> rfl

theorem isNode_of_kids_ne_nil {e : Entry ν} (h : e.kids ≠ nil) : e.isNode = true := by
  cases e with
  | leaf => exact absurd rfl h
  | node k => rfl

theorem cons_ne_nil (n : ν) (e : Entry ν) (a : Forest ν) : cons n e a ≠ nil := by
  cases e <;> simp

theorem append_cons_ne_nil (l r : Forest ν) (n : ν) (e : Entry ν) : l ++ cons n e r ≠ nil := by
  cases l with
  | nil => exact cons_ne_nil n e r
  | leaf m l => simp
  | node m k l => simp

/-- The names of the siblings, in order. -/
def names : Forest ν → List ν
  | nil => []
  | leaf n a => n :: a.names
  | node n _ a => n :: a.names

@[simp] theorem names_nil : (nil : Forest ν).names = [] := rfl

@[simp] theorem names_leaf (n : ν) (a : Forest ν) : (leaf n a).names = n :: a.names := rfl

@[simp] theorem names_node (n : ν) (k a : Forest ν) : (node n k a).names = n :: a.names := rfl

@[simp] theorem names_cons (n : ν) (e : Entry ν) (a : Forest ν) :
    (cons n e a).names = n :: a.names := by
  cases e <;> rfl

@[simp] theorem names_append (a b : Forest ν) : (a ++ b).names = a.names ++ b.names := by
  induction a with
  | nil => rfl
  | leaf n a ih => simp [ih]
  | node n k a _ ih => simp [ih]

/-! ## Valid forests -/

/-- Every name satisfies `P`, and no two siblings anywhere share a name. -/
def Valid (P : ν → Prop) : Forest ν → Prop
  | nil => True
  | leaf n a => P n ∧ n ∉ a.names ∧ a.Valid P
  | node n k a => P n ∧ n ∉ a.names ∧ k.Valid P ∧ a.Valid P

instance decidableValid (P : ν → Prop) [DecidableEq ν] [DecidablePred P] :
    (t : Forest ν) → Decidable (t.Valid P)
  | nil => inferInstanceAs (Decidable True)
  | leaf n a =>
    have := decidableValid P a
    inferInstanceAs (Decidable (P n ∧ n ∉ a.names ∧ a.Valid P))
  | node n k a =>
    have := decidableValid P k
    have := decidableValid P a
    inferInstanceAs (Decidable (P n ∧ n ∉ a.names ∧ k.Valid P ∧ a.Valid P))

variable {P : ν → Prop}

@[simp] theorem valid_nil : (nil : Forest ν).Valid P := trivial

theorem valid_cons (n : ν) (e : Entry ν) (a : Forest ν) :
    (cons n e a).Valid P ↔ P n ∧ n ∉ a.names ∧ e.kids.Valid P ∧ a.Valid P := by
  cases e <;> simp [Valid, Entry.kids]

theorem valid_append (a b : Forest ν) :
    (a ++ b).Valid P ↔ a.Valid P ∧ b.Valid P ∧ ∀ n ∈ a.names, n ∉ b.names := by
  induction a with
  | nil => simp
  | leaf n a ih =>
    simp only [leaf_append, Valid, names_append, List.mem_append, not_or, ih, names_leaf,
      List.forall_mem_cons]
    tauto
  | node n k a _ ih =>
    simp only [node_append, Valid, names_append, List.mem_append, not_or, ih, names_node,
      List.forall_mem_cons]
    tauto

theorem Valid.nodup_names {a : Forest ν} (h : a.Valid P) : a.names.Nodup := by
  induction a with
  | nil => exact List.nodup_nil
  | leaf n a ih => exact List.nodup_cons.mpr ⟨h.2.1, ih h.2.2⟩
  | node n k a _ ih => exact List.nodup_cons.mpr ⟨h.2.1, ih h.2.2.2⟩

theorem Valid.name_of_mem {a : Forest ν} (h : a.Valid P) {n : ν} (hn : n ∈ a.names) : P n := by
  induction a with
  | nil => simp at hn
  | leaf m a ih =>
    rcases List.mem_cons.mp hn with rfl | hn
    · exact h.1
    · exact ih h.2.2 hn
  | node m k a _ ih =>
    rcases List.mem_cons.mp hn with rfl | hn
    · exact h.1
    · exact ih h.2.2.2 hn

/-! ## Contexts -/

/-- One step up from a listing: the siblings left and right of the node that owns it. -/
structure Frame (ν : Type*) where
  left : Forest ν
  name : ν
  right : Forest ν

/-- The listing `t` put back into its context, innermost frame first. -/
def plug : List (Frame ν) → Forest ν → Forest ν
  | [], t => t
  | f :: c, t => plug c (f.left ++ node f.name t f.right)

/-- The names that lead from the top to the listing in the context. -/
def path : List (Frame ν) → List ν
  | [] => []
  | f :: c => path c ++ [f.name]

@[simp] theorem plug_nil (t : Forest ν) : plug [] t = t := rfl

@[simp] theorem plug_cons (f : Frame ν) (c : List (Frame ν)) (t : Forest ν) :
    plug (f :: c) t = plug c (f.left ++ node f.name t f.right) := rfl

@[simp] theorem path_nil : path ([] : List (Frame ν)) = [] := rfl

@[simp] theorem path_cons (f : Frame ν) (c : List (Frame ν)) : path (f :: c) = path c ++ [f.name] := rfl

theorem plug_append (c d : List (Frame ν)) (t : Forest ν) : plug (c ++ d) t = plug d (plug c t) := by
  induction c generalizing t with
  | nil => rfl
  | cons f c ih => simp [ih]

theorem path_append (c d : List (Frame ν)) : path (c ++ d) = path d ++ path c := by
  induction c with
  | nil => simp
  | cons f c ih => simp [ih]

theorem plug_cons_ne_nil (f : Frame ν) (c : List (Frame ν)) (t : Forest ν) : plug (f :: c) t ≠ nil := by
  induction c generalizing f t with
  | nil => exact append_cons_ne_nil f.left f.right f.name (.node t)
  | cons g c ih => exact ih g (f.left ++ node f.name t f.right)

/-- No frame has an earlier sibling of its node's name, so an address finds the context back. -/
def Fits (c : List (Frame ν)) : Prop := ∀ f ∈ c, f.name ∉ f.left.names

theorem Valid.of_plug {c : List (Frame ν)} {t : Forest ν} (h : (plug c t).Valid P) : t.Valid P := by
  induction c generalizing t with
  | nil => exact h
  | cons f c ih => exact ((valid_append _ _).mp (ih h)).2.1.2.2.1

theorem Fits.of_valid {c : List (Frame ν)} {t : Forest ν} (h : (plug c t).Valid P) : Fits c := by
  induction c generalizing t with
  | nil => simp [Fits]
  | cons f c ih =>
    intro g hg
    rcases List.mem_cons.mp hg with rfl | hg
    · have hv := (valid_append _ _).mp (Valid.of_plug (c := c) h)
      exact fun hmem => hv.2.2 _ hmem (by simp)
    · exact ih h g hg

/-- A context can take any valid listing in place of the one it had. -/
theorem Valid.replug {c : List (Frame ν)} {t u : Forest ν} (h : (plug c t).Valid P)
    (hu : u.Valid P) : (plug c u).Valid P := by
  induction c generalizing t u with
  | nil => exact hu
  | cons f c ih =>
    refine ih h ?_
    obtain ⟨hl, hn, hd⟩ := (valid_append _ _).mp (Valid.of_plug (c := c) h)
    refine (valid_append _ _).mpr ⟨hl, ⟨hn.1, hn.2.1, hu, hn.2.2.2⟩, by simpa using hd⟩

/-! ## Addresses -/

section Address

variable [DecidableEq ν]

/-- The first sibling named `x`. -/
def find? : Forest ν → ν → Option (Entry ν)
  | nil, _ => none
  | leaf n a, x => if n = x then some .leaf else a.find? x
  | node n k a, x => if n = x then some (.node k) else a.find? x

/-- What stands at an address; the empty address is the forest itself. -/
def entryAt : Forest ν → List ν → Option (Entry ν)
  | t, [] => some (.node t)
  | t, x :: xs =>
    match t.find? x with
    | some (.node k) => k.entryAt xs
    | some .leaf => if xs = [] then some .leaf else none
    | none => none

/-- The listing of the node at an address. -/
def kidsAt (t : Forest ν) (p : List ν) : Option (Forest ν) :=
  match t.entryAt p with
  | some (.node k) => some k
  | _ => none

/-- Whether a node (`true`) or a leaf (`false`) stands at an address, if anything does. -/
def kindAt (t : Forest ν) (p : List ν) : Option Bool := (t.entryAt p).map Entry.isNode

/-- `g` applied to the listing of the first sibling named `x`, when that is a node. -/
def updateKids (g : Forest ν → Forest ν) : ν → Forest ν → Forest ν
  | _, nil => nil
  | x, leaf n a => if n = x then leaf n a else leaf n (updateKids g x a)
  | x, node n k a => if n = x then node n (g k) a else node n k (updateKids g x a)

/-- `g` applied to the listing of the node at an address. -/
def modifyAt (g : Forest ν → Forest ν) : List ν → Forest ν → Forest ν
  | [], t => g t
  | x :: xs, t => updateKids (modifyAt g xs) x t

/-- The siblings without the first one named `x`. -/
def erase : Forest ν → ν → Forest ν
  | nil, _ => nil
  | leaf n a, x => if n = x then a else leaf n (a.erase x)
  | node n k a, x => if n = x then a else node n k (a.erase x)

/-- The forest with the entry `e` named `n` added as last child of the node at `q`. -/
def insert (t : Forest ν) (q : List ν) (n : ν) (e : Entry ν) : Forest ν :=
  modifyAt (· ++ cons n e nil) q t

/-- The forest without the entry `n` of the node at `q` and everything below it. -/
def remove (t : Forest ν) (q : List ν) (n : ν) : Forest ν := modifyAt (·.erase n) q t

/-- The forest with the listing `k` in place of that of the node at `q`. -/
def setKids (t : Forest ν) (q : List ν) (k : Forest ν) : Forest ν := modifyAt (fun _ => k) q t

theorem find?_eq_none_iff (t : Forest ν) (x : ν) : t.find? x = none ↔ x ∉ t.names := by
  induction t with
  | nil => simp [find?]
  | leaf n a ih => by_cases h : n = x <;> simp [find?, h, Ne.symm, ih]
  | node n k a _ ih => by_cases h : n = x <;> simp [find?, h, Ne.symm, ih]

/-- The sibling found splits the listing at its first occurrence. -/
theorem exists_of_find?_eq_some {t : Forest ν} {x : ν} {e : Entry ν} (h : t.find? x = some e) :
    ∃ l r, t = l ++ cons x e r ∧ x ∉ l.names := by
  induction t with
  | nil => simp [find?] at h
  | leaf n a ih =>
    by_cases hn : n = x
    · subst hn
      simp only [find?, if_true, Option.some.injEq] at h
      exact ⟨nil, a, by simp [← h], by simp⟩
    · obtain ⟨l, r, rfl, hl⟩ := ih (by simpa [find?, hn] using h)
      exact ⟨leaf n l, r, rfl, by simp [hl, Ne.symm hn]⟩
  | node n k a _ ih =>
    by_cases hn : n = x
    · subst hn
      simp only [find?, if_true, Option.some.injEq] at h
      exact ⟨nil, a, by simp [← h], by simp⟩
    · obtain ⟨l, r, rfl, hl⟩ := ih (by simpa [find?, hn] using h)
      exact ⟨node n k l, r, rfl, by simp [hl, Ne.symm hn]⟩

theorem find?_append_cons {l r : Forest ν} {x : ν} {e : Entry ν} (hl : x ∉ l.names) :
    (l ++ cons x e r).find? x = some e := by
  induction l with
  | nil => cases e <;> simp [find?]
  | leaf n l ih =>
    have hne : n ≠ x := fun h => hl (by simp [h])
    simpa [find?, hne] using ih fun h => hl (by simp [h])
  | node n k l _ ih =>
    have hne : n ≠ x := fun h => hl (by simp [h])
    simpa [find?, hne] using ih fun h => hl (by simp [h])

theorem updateKids_append_node {g : Forest ν → Forest ν} {l k r : Forest ν} {x : ν}
    (hl : x ∉ l.names) : updateKids g x (l ++ node x k r) = l ++ node x (g k) r := by
  induction l with
  | nil => simp [updateKids]
  | leaf n l ih =>
    have hne : n ≠ x := fun h => hl (by simp [h])
    simpa [updateKids, hne] using ih fun h => hl (by simp [h])
  | node n m l _ ih =>
    have hne : n ≠ x := fun h => hl (by simp [h])
    simpa [updateKids, hne] using ih fun h => hl (by simp [h])

theorem erase_append_cons {l r : Forest ν} {x : ν} {e : Entry ν} (hl : x ∉ l.names) :
    (l ++ cons x e r).erase x = l ++ r := by
  induction l with
  | nil => cases e <;> simp [erase]
  | leaf n l ih =>
    have hne : n ≠ x := fun h => hl (by simp [h])
    simpa [erase, hne] using ih fun h => hl (by simp [h])
  | node n k l _ ih =>
    have hne : n ≠ x := fun h => hl (by simp [h])
    simpa [erase, hne] using ih fun h => hl (by simp [h])

/-- An edit below a fitting context stays inside it. -/
theorem modifyAt_plug {g : Forest ν → Forest ν} {c : List (Frame ν)} (hc : Fits c) (q : List ν)
    (t : Forest ν) : modifyAt g (path c ++ q) (plug c t) = plug c (modifyAt g q t) := by
  induction c generalizing q t with
  | nil => rfl
  | cons f c ih =>
    have hf := hc f (by simp)
    rw [path_cons, List.append_assoc, plug_cons, ih (fun g hg => hc g (by simp [hg]))]
    simp [modifyAt, updateKids_append_node hf]

theorem entryAt_plug {c : List (Frame ν)} (hc : Fits c) (q : List ν) (t : Forest ν) :
    (plug c t).entryAt (path c ++ q) = t.entryAt q := by
  induction c generalizing q t with
  | nil => rfl
  | cons f c ih =>
    have hf := hc f (by simp)
    rw [path_cons, List.append_assoc, plug_cons, ih (fun g hg => hc g (by simp [hg]))]
    simp [entryAt, ← cons_node, find?_append_cons hf]

theorem entryAt_plug_cons {c : List (Frame ν)} (hc : Fits c) {l r : Forest ν} {n : ν} (e : Entry ν)
    (hl : n ∉ l.names) : (plug c (l ++ cons n e r)).entryAt (path c ++ [n]) = some e := by
  rw [entryAt_plug hc]
  simp only [entryAt, find?_append_cons hl]
  cases e <;> rfl

/-- The node at an address, split off from the context around it. -/
theorem exists_plug_of_entryAt_node {t k : Forest ν} {q : List ν} (h : t.entryAt q = some (.node k)) :
    ∃ c, t = plug c k ∧ path c = q ∧ Fits c := by
  induction q generalizing t with
  | nil => exact ⟨[], by simpa [entryAt] using h, rfl, by simp [Fits]⟩
  | cons x xs ih =>
    simp only [entryAt] at h
    split at h
    · rename_i k₁ hfind
      obtain ⟨l, r, rfl, hl⟩ := exists_of_find?_eq_some hfind
      obtain ⟨c, rfl, rfl, hc⟩ := ih h
      refine ⟨c ++ [⟨l, x, r⟩], by simp [plug_append], by simp [path_append], ?_⟩
      intro f hf
      rcases List.mem_append.mp hf with hf | hf
      · exact hc f hf
      · rw [List.mem_singleton.mp hf]; exact hl
    · split at h <;> simp at h
    · simp at h

/-- An entry below the top, split off from its siblings and the context around them. -/
theorem exists_plug_of_entryAt {t : Forest ν} {q : List ν} {n : ν} {e : Entry ν}
    (h : t.entryAt (q ++ [n]) = some e) :
    ∃ c l r, t = plug c (l ++ cons n e r) ∧ path c = q ∧ Fits c ∧ n ∉ l.names := by
  induction q generalizing t with
  | nil =>
    simp only [List.nil_append, entryAt] at h
    have hfind : t.find? n = some e := by
      split at h <;> simp_all
    obtain ⟨l, r, rfl, hl⟩ := exists_of_find?_eq_some hfind
    exact ⟨[], l, r, rfl, rfl, by simp [Fits], hl⟩
  | cons x xs ih =>
    simp only [List.cons_append, entryAt] at h
    split at h
    · rename_i k₁ hfind
      obtain ⟨l, r, rfl, hl⟩ := exists_of_find?_eq_some hfind
      obtain ⟨c, l', r', rfl, rfl, hc, hl'⟩ := ih h
      refine ⟨c ++ [⟨l, x, r⟩], l', r', by simp [plug_append], by simp [path_append], ?_, hl'⟩
      intro f hf
      rcases List.mem_append.mp hf with hf | hf
      · exact hc f hf
      · rw [List.mem_singleton.mp hf]; exact hl
    · simp at h
    · simp at h

/-- What is below an entry of a valid listing is valid. -/
theorem Valid.kids_of_entryAt {P : ν → Prop} {t : Forest ν} (hv : t.Valid P) {q : List ν} {n : ν}
    {e : Entry ν} (h : t.entryAt (q ++ [n]) = some e) : e.kids.Valid P := by
  obtain ⟨c, l, r, rfl, -, -, -⟩ := exists_plug_of_entryAt h
  exact ((valid_cons _ _ _).mp ((valid_append _ _).mp (Valid.of_plug hv)).2.1).2.2.1

/-- The components of an address where something stands are names. -/
theorem Valid.of_entryAt {P : ν → Prop} {t : Forest ν} (hv : t.Valid P) {q : List ν}
    {e : Entry ν} (h : t.entryAt q = some e) : ∀ x ∈ q, P x := by
  induction q generalizing t with
  | nil => simp
  | cons x xs ih =>
    simp only [entryAt] at h
    cases hfind : t.find? x with
    | none => simp [hfind] at h
    | some e₁ =>
      obtain ⟨l, r, rfl, -⟩ := exists_of_find?_eq_some hfind
      have hcons := (valid_cons _ _ _).mp ((valid_append _ _).mp hv).2.1
      rw [hfind] at h
      cases e₁ with
      | leaf =>
        by_cases hxs : xs = []
        · simpa [hxs] using hcons.1
        · simp [hxs] at h
      | node k =>
        simpa using ⟨hcons.1, ih hcons.2.2.1 h⟩

theorem insert_plug {c : List (Frame ν)} (hc : Fits c) (t : Forest ν) (n : ν) (e : Entry ν) :
    (plug c t).insert (path c) n e = plug c (t ++ cons n e nil) := by
  simpa [insert, modifyAt] using modifyAt_plug (g := (· ++ cons n e nil)) hc [] t

theorem setKids_plug {c : List (Frame ν)} (hc : Fits c) (t k : Forest ν) :
    (plug c t).setKids (path c) k = plug c k := by
  simpa [setKids, modifyAt] using modifyAt_plug (g := fun _ => k) hc [] t

theorem remove_plug {c : List (Frame ν)} (hc : Fits c) {l r : Forest ν} {n : ν} {e : Entry ν}
    (hl : n ∉ l.names) : (plug c (l ++ cons n e r)).remove (path c) n = plug c (l ++ r) := by
  simpa [remove, modifyAt, erase_append_cons hl] using
    modifyAt_plug (g := (·.erase n)) hc [] (l ++ cons n e r)

/-! ## The kinds of what stands at the addresses -/

@[simp] theorem kindAt_nil (t : Forest ν) : t.kindAt [] = some true := rfl

theorem kindAt_cons (t : Forest ν) (x : ν) (xs : List ν) :
    t.kindAt (x :: xs) = match t.find? x with
      | none => none
      | some e => if xs = [] then some e.isNode else e.kids.kindAt xs := by
  simp only [kindAt, entryAt]
  cases t.find? x with
  | none => rfl
  | some e =>
    cases e with
    | leaf =>
      cases xs with
      | nil => rfl
      | cons y ys => simp [Entry.kids, entryAt, find?]
    | node k =>
      cases xs with
      | nil => rfl
      | cons y ys => simp [Entry.kids]

theorem find?_append (a b : Forest ν) (x : ν) : (a ++ b).find? x = (a.find? x).or (b.find? x) := by
  induction a with
  | nil => rfl
  | leaf n a ih => by_cases h : n = x <;> simp [find?, h, ih]
  | node n k a _ ih => by_cases h : n = x <;> simp [find?, h, ih]

theorem find?_cons (n : ν) (e : Entry ν) (a : Forest ν) (x : ν) :
    (cons n e a).find? x = if n = x then some e else a.find? x := by
  cases e <;> rfl

theorem kindAt_plug {c : List (Frame ν)} (hc : Fits c) (q : List ν) (t : Forest ν) :
    (plug c t).kindAt (path c ++ q) = t.kindAt q := by
  rw [kindAt, kindAt, entryAt_plug hc]

/-- Outside its hole a context says by itself what stands where. -/
theorem kindAt_plug_of_not_prefix {c : List (Frame ν)} (hc : Fits c) {p : List ν}
    (hp : ¬ path c <+: p) (t u : Forest ν) : (plug c t).kindAt p = (plug c u).kindAt p := by
  induction c generalizing p t u with
  | nil => exact absurd List.nil_prefix hp
  | cons f c ih =>
    have hfits : Fits c := fun g hg => hc g (by simp [hg])
    by_cases hpre : path c <+: p
    · obtain ⟨s, rfl⟩ := hpre
      rw [plug_cons, plug_cons, kindAt_plug hfits, kindAt_plug hfits]
      cases s with
      | nil => rfl
      | cons x xs =>
        have hx : f.name ≠ x := by
          rintro rfl
          exact hp ⟨xs, by simp⟩
        simp only [kindAt_cons, ← cons_node, find?_append, find?_cons, hx, if_false]
    · exact ih hfits hpre _ _

/-- An entry taken out leaves nothing below its address and everything else. -/
theorem kindAt_plug_erase {c : List (Frame ν)} (hc : Fits c) {l r : Forest ν} {n : ν} (e : Entry ν)
    (hl : n ∉ l.names) (hr : n ∉ r.names) (p : List ν) :
    (plug c (l ++ r)).kindAt p =
      if path c ++ [n] <+: p then none else (plug c (l ++ cons n e r)).kindAt p := by
  by_cases hpre : path c <+: p
  · obtain ⟨s, rfl⟩ := hpre
    rw [kindAt_plug hc, kindAt_plug hc]
    cases s with
    | nil =>
      have hlong : ¬ path c ++ [n] <+: path c ++ [] := by
        intro h
        have := h.length_le
        simp only [List.length_append, List.length_cons, List.length_nil] at this
        omega
      rw [if_neg hlong]
      rfl
    | cons x xs =>
      simp only [List.prefix_append_right_inj, List.cons_prefix_cons, List.nil_prefix, and_true,
        kindAt_cons, find?_append, find?_cons]
      by_cases hx : n = x
      · subst hx
        have hln := (find?_eq_none_iff l n).mpr hl
        have hrn := (find?_eq_none_iff r n).mpr hr
        simp [hln, hrn]
      · simp [hx]
  · rw [if_neg (fun h => hpre ((List.prefix_append _ _).trans h)),
      kindAt_plug_of_not_prefix hc hpre _ (l ++ r)]
    exact kindAt_plug_of_not_prefix hc hpre _ _

/-- A new entry without kids stands at its own address. -/
theorem kindAt_plug_snoc {c : List (Frame ν)} (hc : Fits c) {k : Forest ν} {n : ν} {e : Entry ν}
    (hn : n ∉ k.names) (he : e.kids = nil) (p : List ν) :
    (plug c (k ++ cons n e nil)).kindAt p =
      if p = path c ++ [n] then some e.isNode else (plug c k).kindAt p := by
  by_cases hpre : path c <+: p
  · obtain ⟨s, rfl⟩ := hpre
    rw [kindAt_plug hc, kindAt_plug hc]
    cases s with
    | nil => simp
    | cons x xs =>
      simp only [kindAt_cons, find?_append, find?_cons, List.append_cancel_left_eq, List.cons.injEq]
      by_cases hx : n = x
      · subst hx
        have hkn := (find?_eq_none_iff k n).mpr hn
        cases xs with
        | nil => simp [hkn]
        | cons y ys => simp [hkn, he, kindAt_cons, find?]
      · simp [hx, Ne.symm hx, find?]
  · have hne : p ≠ path c ++ [n] := by
      rintro rfl
      exact hpre (List.prefix_append _ _)
    rw [if_neg hne]
    exact kindAt_plug_of_not_prefix hc hpre _ _

theorem kindAt_remove {P : ν → Prop} {t : Forest ν} (hv : t.Valid P) {q : List ν} {n : ν} {e : Entry ν}
    (h : t.entryAt (q ++ [n]) = some e) (p : List ν) :
    (t.remove q n).kindAt p = if q ++ [n] <+: p then none else t.kindAt p := by
  obtain ⟨c, l, r, rfl, rfl, hc, hl⟩ := exists_plug_of_entryAt h
  have hr : n ∉ r.names :=
    ((valid_cons _ _ _).mp ((valid_append _ _).mp (Valid.of_plug hv)).2.1).2.1
  rw [remove_plug hc hl, kindAt_plug_erase hc e hl hr]

theorem kindAt_insert {t k : Forest ν} {q : List ν} {n : ν} {e : Entry ν}
    (h : t.entryAt q = some (.node k)) (hn : n ∉ k.names) (he : e.kids = nil) (p : List ν) :
    (t.insert q n e).kindAt p = if p = q ++ [n] then some e.isNode else t.kindAt p := by
  obtain ⟨c, rfl, rfl, hc⟩ := exists_plug_of_entryAt_node h
  rw [insert_plug hc, kindAt_plug_snoc hc hn he]

/-- The kind of what stands at an address below an entry. -/
def entryKindAt (e : Entry ν) (s : List ν) : Option Bool :=
  if s = [] then some e.isNode else e.kids.kindAt s

theorem kindAt_append {t : Forest ν} {q : List ν} {e : Entry ν} (h : t.entryAt q = some e)
    (s : List ν) : t.kindAt (q ++ s) = entryKindAt e s := by
  induction q generalizing t with
  | nil =>
    obtain rfl : Entry.node t = e := by simpa [entryAt] using h
    by_cases hs : s = []
    · simp [hs, entryKindAt, Entry.isNode]
    · simp [hs, entryKindAt, Entry.kids]
  | cons x xs ih =>
    rw [List.cons_append, kindAt_cons]
    simp only [entryAt] at h
    cases hfind : t.find? x with
    | none => simp [hfind] at h
    | some e' =>
      simp only [hfind] at h
      cases e' with
      | leaf =>
        by_cases hxs : xs = []
        · simp only [hxs, if_true, Option.some.injEq] at h
          subst h hxs
          rfl
        · simp [hxs] at h
      | node k =>
        simp only
        by_cases hxs : xs ++ s = []
        · obtain ⟨rfl, rfl⟩ := List.append_eq_nil_iff.mp hxs
          obtain rfl : Entry.node k = e := by simpa [entryAt] using h
          rfl
        · rw [if_neg hxs]
          exact ih h

/-- What an address leads through is a node. -/
theorem exists_node_of_entryAt_append {t : Forest ν} {q s : List ν} (hs : s ≠ [])
    (h : (t.entryAt (q ++ s)).isSome) : ∃ k, t.entryAt q = some (.node k) ∧ (k.entryAt s).isSome := by
  induction q generalizing t with
  | nil => exact ⟨t, rfl, h⟩
  | cons x xs ih =>
    rw [List.cons_append, entryAt] at h
    rw [entryAt]
    cases hfind : t.find? x with
    | none => simp [hfind] at h
    | some e =>
      rw [hfind] at h
      cases e with
      | leaf => simp [hs] at h
      | node k => exact ih h

theorem exists_node_of_kindAt {t : Forest ν} {q : List ν} (h : t.kindAt q = some true) :
    ∃ k, t.entryAt q = some (.node k) := by
  cases hentry : t.entryAt q with
  | none => simp [kindAt, hentry] at h
  | some e =>
    cases e with
    | leaf => simp [kindAt, hentry, Entry.isNode] at h
    | node k => exact ⟨k, rfl⟩

theorem eq_nil_of_kindAt {k : Forest ν} (h : ∀ x, k.kindAt [x] = none) : k = nil := by
  cases k with
  | nil => rfl
  | leaf n k => exact absurd (h n) (by simp [kindAt_cons, find?])
  | node n k₁ k => exact absurd (h n) (by simp [kindAt_cons, find?])

/-- A listing put in the hole of a context is what stands below its address. -/
theorem kindAt_plug_eq {c : List (Frame ν)} (hc : Fits c) (t u : Forest ν) (p : List ν) :
    (plug c t).kindAt p =
      if path c <+: p then t.kindAt (p.drop (path c).length) else (plug c u).kindAt p := by
  split
  · rename_i hpre
    obtain ⟨s, rfl⟩ := hpre
    rw [kindAt_plug hc, List.drop_left]
  · rename_i hpre
    exact kindAt_plug_of_not_prefix hc hpre _ _

theorem kindAt_setKids {t : Forest ν} {q : List ν} {k₀ : Forest ν} (h : t.entryAt q = some (.node k₀))
    (k : Forest ν) (p : List ν) :
    (t.setKids q k).kindAt p = if q <+: p then k.kindAt (p.drop q.length) else t.kindAt p := by
  obtain ⟨c, rfl, rfl, hc⟩ := exists_plug_of_entryAt_node h
  rw [setKids_plug hc, kindAt_plug_eq hc k k₀]

/-- A new entry with all below it stands at its own address. -/
theorem kindAt_insert_entry {t k : Forest ν} {q : List ν} {n : ν} (h : t.entryAt q = some (.node k))
    (hn : n ∉ k.names) (e : Entry ν) (p : List ν) :
    (t.insert q n e).kindAt p =
      if q ++ [n] <+: p then entryKindAt e (p.drop (q.length + 1)) else t.kindAt p := by
  obtain ⟨c, rfl, rfl, hc⟩ := exists_plug_of_entryAt_node h
  rw [insert_plug hc]
  by_cases hpre : path c <+: p
  · obtain ⟨s, rfl⟩ := hpre
    rw [kindAt_plug hc, kindAt_plug hc]
    cases s with
    | nil =>
      have hlong : ¬ path c ++ [n] <+: path c ++ [] := by
        intro h
        have := h.length_le
        simp only [List.length_append, List.length_cons, List.length_nil] at this
        omega
      rw [if_neg hlong]
      rfl
    | cons x xs =>
      have hdrop : (path c ++ x :: xs).drop ((path c).length + 1) = xs := by
        rw [← List.drop_drop, List.drop_left]
        rfl
      simp only [List.prefix_append_right_inj, List.cons_prefix_cons, List.nil_prefix, and_true,
        kindAt_cons, find?_append, find?_cons, hdrop]
      by_cases hx : n = x
      · subst hx
        have hkn := (find?_eq_none_iff k n).mpr hn
        simp [hkn, entryKindAt]
      · cases hk : k.find? x with
        | none => simp [hx, find?]
        | some e' => simp [hx]
  · rw [if_neg (fun h => hpre ((List.prefix_append _ _).trans h))]
    exact kindAt_plug_of_not_prefix hc hpre _ _

end Address

end Forest

end OrderedForest
