import Mathlib.Data.List.Basic
import Mathlib.Data.List.Forall2
import Mathlib.Data.Set.Card
import Mathlib.Order.Lattice
import Mathlib.Tactic.Common

/-!
# Paging through a capped search

A search can be started at any position and finds the candidates behind it, of which a filter accepts
some. A page is filled by rounds: each takes the first candidates of a search, up to a cap, and the next
round starts behind the last of them; when the page is full, the next page starts at the candidate that
comes next. What a search finds may depend on where it was started, as long as the accepted candidates
do not.
-/

namespace Paging

universe u v

variable {ι : Type*}

/-- A pass over a list that never fails maps it. -/
theorem mapM_eq_pure {κ : Type u} {m : Type u → Type v} [Monad m] [LawfulMonad m] {f : ι → m κ} {g : ι → κ}
    {l : List ι} (h : ∀ x ∈ l, f x = pure (g x)) : l.mapM f = pure (l.map g) := by
  induction l with
  | nil => rfl
  | cons x l ih =>
    rw [List.mapM_cons, h x List.mem_cons_self, ih fun y hy => h y (List.mem_cons_of_mem _ hy)]
    simp only [pure_bind, List.map_cons]

/-- A pass over a list that does not fail, element by element. -/
theorem forall₂_of_mapM {κ : Type*} {f : ι → Option κ} {l : List ι} {l' : List κ} (h : l.mapM f = some l') :
    List.Forall₂ (fun x y => f x = some y) l l' := by
  induction l generalizing l' with
  | nil =>
    obtain rfl : [] = l' := Option.some.inj h
    exact .nil
  | cons x l ih =>
    rw [List.mapM_cons] at h
    obtain ⟨y, hy, h⟩ := Option.bind_eq_some_iff.mp h
    obtain ⟨l', hl', h⟩ := Option.bind_eq_some_iff.mp h
    obtain rfl := Option.some.inj h
    exact .cons hy (ih hl')

/-! ## Filling a page -/

/-- The beginning of a list up to the accepted element that uses the room up, and what is left. -/
def cut (ok : ι → Bool) : ℕ → List ι → List ι × List ι
  | 0, l => ([], l)
  | _ + 1, [] => ([], [])
  | room + 1, x :: l =>
    let (looked, rest) := cut ok (if ok x then room else room + 1) l
    (x :: looked, rest)

theorem cut_append (ok : ι → Bool) (room : ℕ) (l : List ι) :
    (cut ok room l).1 ++ (cut ok room l).2 = l := by
  induction l generalizing room with
  | nil => cases room <;> rfl
  | cons x l ih =>
    cases room with
    | zero => rfl
    | succ room =>
      rw [cut, List.cons_append, ih]

theorem filter_cut (ok : ι → Bool) (room : ℕ) (l : List ι) :
    (cut ok room l).1.filter ok = (l.filter ok).take room ∧
      (cut ok room l).2.filter ok = (l.filter ok).drop room := by
  induction l generalizing room with
  | nil => cases room <;> simp [cut]
  | cons x l ih =>
    cases room with
    | zero => simp [cut]
    | succ room =>
      rw [cut]
      by_cases hx : ok x = true
      · simp [hx, ih]
      · simp [hx, ih]

/-- Something is left only if the room is used up. -/
theorem length_cut (ok : ι → Bool) {room : ℕ} {l : List ι} (h : (cut ok room l).2 ≠ []) :
    ((cut ok room l).1.filter ok).length = room := by
  rw [(filter_cut ok room l).1]
  induction l generalizing room with
  | nil => cases room <;> simp [cut] at h
  | cons x l ih =>
    cases room with
    | zero => simp
    | succ room =>
      rw [cut] at h
      have := ih h
      by_cases hx : ok x = true
      · simp only [hx, if_true] at this
        simp [hx] at this ⊢
        omega
      · simp only [hx, Bool.false_eq_true, if_false] at this
        simpa [hx] using this

variable [LinearOrder ι] (raw : ι → List ι) (ok : ι → Bool) (next : ι → ι) (cap : ℕ) (stop : ι)

/-- A page with room for `room` more: what the rounds look at, and where the next page starts. -/
def page : ℕ → ι → ℕ → List ι × ι
  | 0, s, _ => ([], s)
  | fuel + 1, s, room =>
    match ((raw s).take cap).getLast? with
    | none => ([], stop)
    | some last =>
      let (looked, rest) := cut ok room ((raw s).take cap)
      let room := room - (looked.filter ok).length
      if room = 0 then (looked, rest.head?.getD (next last))
      else
        let (more, s) := page fuel (next last) room
        (looked ++ more, s)

omit [LinearOrder ι] in
/-- What a page looks at, a search has found. -/
theorem mem_page {fuel : ℕ} {s s' : ι} {room : ℕ} {looked : List ι}
    (hpage : page raw ok next cap stop fuel s room = (looked, s')) {x : ι} (hx : x ∈ looked) :
    ∃ s, x ∈ raw s := by
  obtain rfl : (page raw ok next cap stop fuel s room).1 = looked := congrArg Prod.fst hpage
  clear hpage
  induction fuel generalizing s room with
  | zero => simp [page] at hx
  | succ fuel ih =>
    have hround : ∀ {y}, y ∈ (cut ok room ((raw s).take cap)).1 → ∃ s, y ∈ raw s := fun {y} hy =>
      ⟨s, List.mem_of_mem_take (cut_append ok room ((raw s).take cap) ▸ List.mem_append_left _ hy)⟩
    rw [page] at hx
    split at hx
    · simp at hx
    · simp only at hx
      split at hx
      · exact hround hx
      · exact (List.mem_append.mp hx).elim hround ih

/-- One page after the other until one is empty: what is looked at, and the pages. -/
def pages (fuel : ℕ) : ℕ → ι → List ι × List (List ι)
  | 0, _ => ([], [])
  | n + 1, s =>
    let (looked, s) := page raw ok next cap stop fuel s cap
    if looked.filter ok = [] then (looked, [])
    else
      let (more, rest) := pages fuel n s
      (looked ++ more, looked.filter ok :: rest)

omit [LinearOrder ι] in
/-- The pages hold what is accepted of what is looked at. -/
theorem flatten_pages (fuel n : ℕ) (s : ι) :
    (pages raw ok next cap stop fuel n s).2.flatten = (pages raw ok next cap stop fuel n s).1.filter ok := by
  induction n generalizing s with
  | zero => rfl
  | succ n ih =>
    rw [pages]
    generalize page raw ok next cap stop fuel s cap = result
    obtain ⟨looked, s'⟩ := result
    simp only
    split
    · rename_i hempty
      rw [hempty, List.flatten_nil]
    · rw [List.flatten_cons, List.filter_append, ← ih]

/-! ## What the pages hold -/

/-- A search that accepts `acc`. Positions satisfy `Pos`, and all candidates are among `all`. -/
structure Source (Pos : ι → Prop) (all acc : List ι) : Prop where
  sorted : ∀ s, Pos s → (raw s).Pairwise (· < ·)
  mem : ∀ s, Pos s → ∀ x ∈ raw s, x ∈ all ∧ s ≤ x
  accepted : ∀ s, Pos s → (raw s).filter ok = acc.filter (s ≤ ·)
  pos : ∀ s, Pos s → ∀ x ∈ raw s, Pos x ∧ Pos (next x)
  next_lt : ∀ s, Pos s → ∀ x ∈ raw s, x < next x ∧ acc.filter (next x ≤ ·) = acc.filter (x < ·)
  pos_stop : Pos stop
  raw_stop : raw stop = []

variable {raw ok next cap stop} {Pos : ι → Prop} {all acc : List ι}

namespace Source

variable (h : Source raw ok next stop Pos all acc)
include h

/-- Behind a candidate the rest of the candidates that are accepted follow. -/
theorem accepted_after {s x : ι} (hs : Pos s) {l r : List ι} (hraw : raw s = l ++ x :: r) :
    acc.filter (x < ·) = r.filter ok ∧ acc.filter (x ≤ ·) = (x :: r).filter ok := by
  have hsorted := h.sorted s hs
  rw [hraw, List.pairwise_append, List.pairwise_cons] at hsorted
  obtain ⟨-, ⟨hr, -⟩, hl⟩ := hsorted
  have hx := (h.mem s hs x (by simp [hraw])).2
  have hacc := h.accepted s hs
  rw [hraw, List.filter_append] at hacc
  have hlt : ∀ y ∈ l, y < x := fun y hy => hl y hy x List.mem_cons_self
  constructor
  · have : acc.filter (x < ·) = (acc.filter (s ≤ ·)).filter (x < ·) := by
      rw [List.filter_filter]
      refine List.filter_congr fun y _ => ?_
      by_cases hy : x < y
      · simp [hy, (lt_of_le_of_lt hx hy).le]
      · simp [hy]
    rw [this, ← hacc, List.filter_append, List.filter_eq_nil_iff.mpr, List.nil_append,
      List.filter_filter, List.filter_cons, if_neg (by simp)]
    · refine List.filter_congr fun y hy => ?_
      simp [hr y hy]
    · intro y hy
      have := hlt y (List.mem_of_mem_filter hy)
      simpa using this.le
  · have : acc.filter (x ≤ ·) = (acc.filter (s ≤ ·)).filter (x ≤ ·) := by
      rw [List.filter_filter]
      refine List.filter_congr fun y _ => ?_
      by_cases hy : x ≤ y
      · simp [hy, hx.trans hy]
      · simp [hy]
    rw [this, ← hacc, List.filter_append, List.filter_eq_nil_iff.mpr, List.nil_append,
      List.filter_filter]
    · refine List.filter_congr fun y hy => ?_
      rcases List.mem_cons.mp hy with rfl | hy
      · simp
      · simp [(hr y hy).le]
    · intro y hy
      simpa using hlt y (List.mem_of_mem_filter hy)

/-- A page takes the first accepted candidates, as many as there is room for, and leaves the others to
the next page. -/
theorem page_spec (hcap : 0 < cap) {fuel : ℕ} {s s' : ι} (hs : Pos s) {room : ℕ} (hroom : 0 < room)
    (hfuel : (all.filter (s ≤ ·)).length < fuel) {looked : List ι}
    (hpage : page raw ok next cap stop fuel s room = (looked, s')) :
    looked.filter ok = (acc.filter (s ≤ ·)).take room ∧ Pos s' ∧
      acc.filter (s' ≤ ·) = (acc.filter (s ≤ ·)).drop room := by
  induction fuel generalizing s s' room looked with
  | zero => omega
  | succ fuel ih =>
    rw [page] at hpage
    cases hlast : ((raw s).take cap).getLast? with
    | none =>
      rw [hlast] at hpage
      obtain ⟨rfl, rfl⟩ := Prod.mk.inj hpage
      have hempty : raw s = [] := by
        rcases List.take_eq_nil_iff.mp (List.getLast?_eq_none_iff.mp hlast) with h0 | h0
        · omega
        · exact h0
      have hacc := h.accepted s hs
      have hstop := h.accepted stop h.pos_stop
      rw [hempty, List.filter_nil] at hacc
      rw [h.raw_stop, List.filter_nil] at hstop
      rw [← hacc, ← hstop]
      exact ⟨by simp, h.pos_stop, by simp⟩
    | some last =>
      rw [hlast] at hpage
      simp only at hpage
      obtain ⟨before, hround⟩ := List.getLast?_eq_some_iff.mp hlast
      have hraw : raw s = before ++ last :: (raw s).drop cap := by
        conv_lhs => rw [← List.take_append_drop cap (raw s), hround]
        simp
      have hmem : last ∈ raw s := List.mem_of_mem_take (List.mem_of_getLast? hlast)
      obtain ⟨hall, hle⟩ := h.mem s hs last hmem
      obtain ⟨hlt, hnext⟩ := h.next_lt s hs last hmem
      obtain ⟨hafter, -⟩ := h.accepted_after hs hraw
      -- what is accepted from here is what the round accepts and what comes behind it
      have hsplit : acc.filter (s ≤ ·) = ((raw s).take cap).filter ok ++ acc.filter (next last ≤ ·) := by
        rw [hnext, hafter, ← h.accepted s hs, ← List.filter_append, List.take_append_drop]
      obtain ⟨hlooked, hrest⟩ := filter_cut ok room ((raw s).take cap)
      have happend := cut_append ok room ((raw s).take cap)
      have hlength := @length_cut ι ok room ((raw s).take cap)
      generalize cut ok room ((raw s).take cap) = c at hpage hlooked hrest happend hlength
      obtain ⟨here, rest⟩ := c
      simp only at hpage hlooked hrest happend hlength
      have hcount : (here.filter ok).length = min room (((raw s).take cap).filter ok).length := by
        rw [hlooked, List.length_take]
      by_cases hfull : room - (here.filter ok).length = 0
      · rw [if_pos hfull] at hpage
        have hroundlen : room ≤ (((raw s).take cap).filter ok).length := by omega
        rw [hsplit, List.take_append_of_le_length hroundlen, List.drop_append_of_le_length hroundlen,
          ← hrest]
        cases rest with
        | nil =>
          obtain ⟨rfl, rfl⟩ := Prod.mk.inj hpage
          exact ⟨hlooked, (h.pos s hs last hmem).2, rfl⟩
        | cons x rest =>
          have hlook : here = looked := (Prod.mk.inj hpage).1
          have hnew : x = s' := (Prod.mk.inj hpage).2
          subst hlook hnew
          -- the page is full before the round is through
          have hrawx : raw s = here ++ x :: (rest ++ (raw s).drop cap) := by
            conv_lhs => rw [← List.take_append_drop cap (raw s), ← happend]
            simp
          have hx : x ∈ raw s := by
            rw [hrawx]
            simp
          refine ⟨hlooked, (h.pos s hs x hx).1, ?_⟩
          rw [(h.accepted_after hs hrawx).2, hnext, hafter, ← List.cons_append, List.filter_append]
      · rw [if_neg hfull] at hpage
        have hroundlen : (((raw s).take cap).filter ok).length < room := by omega
        obtain rfl : rest = [] := by_contra fun hne => by
          have := hlength hne
          omega
        rw [List.append_nil] at happend
        subst happend
        have hless : (all.filter (next last ≤ ·)).length < (all.filter (s ≤ ·)).length := by
          have hsub : all.filter (next last ≤ ·) = (all.filter (s ≤ ·)).filter (next last ≤ ·) := by
            rw [List.filter_filter]
            refine List.filter_congr fun y _ => ?_
            by_cases hy : next last ≤ y
            · simp [hy, hle.trans (hlt.le.trans hy)]
            · simp [hy]
          rw [hsub]
          refine List.length_filter_lt_length_iff_exists.mpr ⟨last, ?_, ?_⟩
          · exact List.mem_filter.mpr ⟨hall, by simpa using hle⟩
          · simpa using hlt
        generalize hmore : page raw ok next cap stop fuel (next last)
          (room - (((raw s).take cap).filter ok).length) = result at hpage
        obtain ⟨more, t⟩ := result
        obtain ⟨rfl, rfl⟩ := Prod.mk.inj hpage
        obtain ⟨h₁, h₂, h₃⟩ := ih (h.pos s hs last hmem).2 (by omega) (by omega) hmore
        refine ⟨?_, h₂, ?_⟩
        · rw [List.filter_append, h₁, hsplit, List.take_append,
            List.take_of_length_le (l := ((raw s).take cap).filter ok) (by omega)]
        · rw [h₃, hsplit, List.drop_append,
            List.drop_of_length_le (l := ((raw s).take cap).filter ok) (by omega), List.nil_append]

/-- The pages together hold what is accepted, and none of them holds too much. -/
theorem pages_spec (hcap : 0 < cap) {fuel : ℕ} (hfuel : all.length < fuel) {n : ℕ} {s : ι} (hs : Pos s)
    (hn : (acc.filter (s ≤ ·)).length < n) :
    (pages raw ok next cap stop fuel n s).2.flatten = acc.filter (s ≤ ·) ∧
      ∀ p ∈ (pages raw ok next cap stop fuel n s).2, p.length ≤ cap := by
  induction n generalizing s with
  | zero => omega
  | succ n ih =>
    rw [pages]
    generalize hpage : page raw ok next cap stop fuel s cap = result
    obtain ⟨looked, s'⟩ := result
    obtain ⟨h₁, h₂, h₃⟩ := h.page_spec hcap hs hcap
      (Nat.lt_of_le_of_lt (List.length_filter_le _ _) hfuel) hpage
    simp only
    by_cases hempty : looked.filter ok = []
    · rw [if_pos hempty]
      rw [hempty] at h₁
      rcases List.take_eq_nil_iff.mp h₁.symm with h0 | h0
      · omega
      · simp [h0]
    · rw [if_neg hempty]
      have hpos : acc.filter (s ≤ ·) ≠ [] := by
        intro h0
        rw [h0, List.take_nil] at h₁
        exact hempty h₁
      have hlen := List.length_pos_iff.mpr hpos
      obtain ⟨hflat, hall⟩ := ih h₂ (by rw [h₃, List.length_drop]; omega)
      generalize pages raw ok next cap stop fuel n s' = rest at hflat hall ⊢
      obtain ⟨more, ps⟩ := rest
      simp only at hflat hall ⊢
      refine ⟨?_, fun p hp => ?_⟩
      · rw [List.flatten_cons, hflat, h₁, h₃, List.take_append_drop]
      · rcases List.mem_cons.mp hp with rfl | hp
        · rw [h₁]
          exact List.length_take_le _ _
        · exact hall p hp

end Source

/-! ## Calls without a filter -/

variable (raw next cap) (sound : ι → Prop) [DecidablePred sound]

/-- One call after the other, each with room for `cap`, until one finds less than that. A search that is not
sound where it starts gives nothing. -/
def calls : ℕ → ι → Option (List ι)
  | 0, _ => none
  | n + 1, s =>
    if sound s then
      if (raw s).length < cap then some (raw s)
      else
        match ((raw s).take cap).getLast? with
        | none => some []
        | some last => (calls n (next last)).map ((raw s).take cap ++ ·)
    else none

variable {raw next cap sound}

/-- A search that finds from behind a candidate on at least the later candidates, perhaps more. -/
structure Growing (raw : ι → List ι) (next : ι → ι) (Pos : ι → Prop) : Prop where
  sorted : ∀ s, Pos s → (raw s).Pairwise (· < ·)
  pos : ∀ s, Pos s → ∀ x ∈ raw s, Pos (next x)
  kept : ∀ s, Pos s → ∀ x ∈ raw s, ∀ y ∈ raw s, x < y → y ∈ raw (next x)

omit [LinearOrder ι] in
/-- A full page of a search: the last candidate on it, and the candidates behind. -/
theorem exists_last (hcap : 0 < cap) {l : List ι} (hlen : cap ≤ l.length) :
    ∃ x, (l.take cap).getLast? = some x ∧ x ∈ l ∧ l[cap - 1]? = some x := by
  have hx : l[cap - 1]? = some l[cap - 1] := List.getElem?_eq_getElem (by omega)
  refine ⟨l[cap - 1], ?_, List.getElem_mem _, hx⟩
  rw [List.getLast?_eq_getElem?, List.length_take, Nat.min_eq_left hlen, List.getElem?_take, if_pos (by omega)]
  exact hx

/-- In a sorted list, what is behind an element is what is greater. -/
theorem mem_drop_iff {l : List ι} (hl : l.Pairwise (· < ·)) {i : ℕ} {x y : ι} (hx : l[i]? = some x) :
    y ∈ l.drop (i + 1) ↔ y ∈ l ∧ x < y := by
  obtain ⟨hi, rfl⟩ := List.getElem?_eq_some_iff.mp hx
  have hsplit : l = l.take i ++ l[i] :: l.drop (i + 1) := by
    rw [← List.drop_eq_getElem_cons hi, List.take_append_drop]
  have hpair := hl
  rw [hsplit, List.pairwise_append, List.pairwise_cons] at hpair
  refine ⟨fun hy => ⟨List.mem_of_mem_drop hy, hpair.2.1.1 y hy⟩, fun ⟨hy, hlt⟩ => ?_⟩
  rw [hsplit] at hy
  rcases List.mem_append.mp hy with hy | hy
  · exact absurd hlt (lt_asymm (hpair.2.2 y hy _ List.mem_cons_self))
  · rcases List.mem_cons.mp hy with rfl | hy
    · exact absurd hlt (lt_irrefl _)
    · exact hy

/-- If enough of a sorted list is less than `x`, then its first elements are. -/
theorem exists_lt_of_countP (hcap : 0 < cap) {l : List ι} (hl : l.Pairwise (· < ·)) {x : ι}
    (hcount : cap ≤ l.countP (· < x)) : ∃ y, l[cap - 1]? = some y ∧ y < x := by
  have hlen : cap - 1 < l.length := by
    have := List.countP_le_length (p := (· < x)) (l := l)
    omega
  refine ⟨l[cap - 1], List.getElem?_eq_getElem hlen, ?_⟩
  by_contra hge
  have hsplit : l.countP (· < x) = (l.take (cap - 1)).countP (· < x) + (l.drop (cap - 1)).countP (· < x) := by
    rw [← List.countP_append, List.take_append_drop]
  have hfront : (l.take (cap - 1)).countP (· < x) ≤ cap - 1 :=
    List.countP_le_length.trans (List.length_take_le _ _)
  have hrest : (l.drop (cap - 1)).countP (· < x) = 0 := by
    refine List.countP_eq_zero.mpr fun y hy => ?_
    have hpair := hl.sublist (List.drop_sublist (cap - 1) l)
    rw [List.drop_eq_getElem_cons hlen] at hy hpair
    rcases List.mem_cons.mp hy with rfl | hy
    · simpa using not_lt.mp hge
    · simpa using (not_lt.mp hge).trans ((List.pairwise_cons.mp hpair).1 y hy).le
  omega

/-- Sorted lists with the same elements are equal. -/
theorem eq_of_sorted {l₁ l₂ : List ι} (h₁ : l₁.Pairwise (· < ·)) (h₂ : l₂.Pairwise (· < ·))
    (hmem : ∀ x, x ∈ l₁ ↔ x ∈ l₂) : l₁ = l₂ := by
  have hnodup : ∀ {l : List ι}, l.Pairwise (· < ·) → l.Nodup := fun hl => hl.imp fun hlt => ne_of_lt hlt
  exact ((List.perm_ext_iff_of_nodup (hnodup h₁) (hnodup h₂)).mpr hmem).eq_of_pairwise
    (fun a b _ _ hab hba => absurd hab (lt_asymm hba)) h₁ h₂

namespace Growing

variable (h : Growing raw next Pos)
include h

/-- The calls lose nothing that the first one could have found. -/
theorem mem_calls (hcap : 0 < cap) {n : ℕ} {s : ι} (hs : Pos s) {l : List ι}
    (hl : calls raw next cap sound n s = some l) : ∀ x ∈ raw s, x ∈ l := by
  induction n generalizing s l with
  | zero => cases hl
  | succ n ih =>
    rw [calls] at hl
    split at hl
    · split at hl
      · obtain rfl := Option.some.inj hl
        exact fun x hx => hx
      · rename_i hlen
        obtain ⟨last, hlast, hmem, hget⟩ := exists_last hcap (Nat.le_of_not_lt hlen)
        rw [hlast] at hl
        obtain ⟨more, hmore, rfl⟩ := Option.map_eq_some_iff.mp hl
        intro x hx
        rw [← List.take_append_drop cap (raw s)] at hx
        refine List.mem_append.mpr ((List.mem_append.mp hx).imp_right fun hx => ?_)
        have hafter := (mem_drop_iff (h.sorted s hs) (y := x) hget).mp (by rwa [Nat.sub_add_cancel hcap])
        exact ih (h.pos s hs _ hmem) hmore x (h.kept s hs _ hmem x hafter.1 hafter.2)
    · cases hl

/-- The calls find what one call finds if and only if all of them are sound and behind the end of each page
the search finds no more than that. -/
theorem calls_eq_iff (hcap : 0 < cap) {s : ι} (hs : Pos s) :
    (∃ n, calls raw next cap sound n s = some (raw s)) ↔
      sound s ∧ ∀ i x, (raw s)[i]? = some x → cap ∣ i + 1 →
        raw (next x) = (raw s).drop (i + 1) ∧ sound (next x) := by
  constructor
  · rintro ⟨n, hn⟩
    induction n generalizing s with
    | zero => cases hn
    | succ n ih =>
      rw [calls] at hn
      split at hn
      · rename_i hsound
        refine ⟨hsound, fun i x hx hdvd => ?_⟩
        have hi : i < (raw s).length := (List.getElem?_eq_some_iff.mp hx).1
        have hle : cap ≤ i + 1 := Nat.le_of_dvd (by omega) hdvd
        obtain ⟨last, hlast, hmem, hget⟩ := exists_last hcap (show cap ≤ (raw s).length by omega)
        rw [if_neg (by omega), hlast] at hn
        obtain ⟨more, hmore, heq⟩ := Option.map_eq_some_iff.mp hn
        have hpos := h.pos s hs _ hmem
        obtain rfl : more = (raw s).drop cap := by
          conv_rhs at heq => rw [← List.take_append_drop cap (raw s)]
          exact List.append_cancel_left heq
        -- the page ends where nothing more is found
        have hbehind : ∀ y, y ∈ (raw s).drop cap ↔ y ∈ raw s ∧ last < y := fun y => by
          have := mem_drop_iff (h.sorted s hs) (y := y) hget
          rwa [Nat.sub_add_cancel hcap] at this
        have hfound : raw (next last) = (raw s).drop cap := by
          refine eq_of_sorted (h.sorted _ hpos) ((h.sorted s hs).sublist (List.drop_sublist _ _)) fun y => ?_
          exact ⟨h.mem_calls hcap hpos hmore y, fun hy =>
            h.kept s hs _ hmem y ((hbehind y).mp hy).1 ((hbehind y).mp hy).2⟩
        obtain ⟨hnext, hrest⟩ := ih hpos (hfound ▸ hmore)
        by_cases hfirst : i + 1 = cap
        · obtain rfl : i = cap - 1 := by omega
          obtain rfl : x = last := Option.some.inj (hx.symm.trans hget)
          rw [hfound, Nat.sub_add_cancel hcap]
          exact ⟨rfl, hnext⟩
        · obtain ⟨hstep, hsound'⟩ := hrest (i - cap) x (by
            rw [hfound, List.getElem?_drop, Nat.add_sub_cancel' (by omega)]
            exact hx) (by
            rw [show i - cap + 1 = i + 1 - cap by omega]
            exact Nat.dvd_sub hdvd (Nat.dvd_refl cap))
          refine ⟨?_, hsound'⟩
          rw [hstep, hfound, List.drop_drop]
          congr 1
          omega
      · cases hn
  · rintro ⟨hsound, hall⟩
    induction hlen : (raw s).length using Nat.strongRecOn generalizing s with
    | _ m ih =>
      by_cases hshort : (raw s).length < cap
      · exact ⟨1, by rw [calls, if_pos hsound, if_pos hshort]⟩
      obtain ⟨last, hlast, hmem, hget⟩ := exists_last hcap (Nat.le_of_not_lt hshort)
      have hpos := h.pos s hs _ hmem
      obtain ⟨hfound, hnext⟩ := hall _ _ hget (Nat.sub_add_cancel hcap ▸ Nat.dvd_refl cap)
      rw [Nat.sub_add_cancel hcap] at hfound
      obtain ⟨n, hn⟩ := ih (raw (next last)).length (by rw [hfound, List.length_drop]; omega) hpos hnext
        (fun i x hx hdvd => by
          rw [hfound, List.getElem?_drop] at hx
          obtain ⟨hstep, hsound'⟩ := hall (cap + i) x hx (by
            rw [Nat.add_assoc]
            exact Nat.dvd_add (Nat.dvd_refl cap) hdvd)
          exact ⟨by rw [hstep, hfound, List.drop_drop, Nat.add_assoc], hsound'⟩) rfl
      refine ⟨n + 1, ?_⟩
      rw [calls, if_pos hsound, if_neg hshort, hlast]
      simp only
      rw [hn, Option.map_some, hfound, List.take_append_drop]

end Growing

end Paging
