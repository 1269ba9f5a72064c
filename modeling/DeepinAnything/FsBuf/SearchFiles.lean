import DeepinAnything.FsBuf.PathRange

/-!
# Searching page by page (`search_files`)

A call of `search_files` goes from an entry boundary to a later one and finds the matching entries
between them, wherever it stops: at the end of the range, with a full page, or where the callback has
stopped it. Callers go on with the offset it returns.
-/

namespace DeepinAnything

open ByteMem OrderedForest OrderedForest.Forest

variable {b : FsBuf} {root : Bytes} {t : Tree}

/-- A place between entries: where an entry or a parent tag stands, or the tail. -/
def Boundary (b : FsBuf) (t : Tree) (off : ℕ) : Prop :=
  off = b.tail ∨ ∃ x ∈ treeItems b.firstNameOff [] t, x.off = off

/-- A matching entry stands at the offset. -/
def MatchAt (b : FsBuf) (t : Tree) (comparator : Bytes → Bool) (off : ℕ) : Prop :=
  ∃ q n e, t.entryAt (q ++ [n]) = some e ∧ offAt b.firstNameOff t (q ++ [n]) = off ∧ comparator n

/-- The offsets are those of the matching entries between two boundaries, in increasing order. -/
structure MatchesIn (b : FsBuf) (t : Tree) (comparator : Bytes → Bool) (start stop : ℕ)
    (offs : List ℕ) : Prop where
  sorted : offs.Pairwise (· < ·)
  mem_iff : ∀ off, off ∈ offs ↔ MatchAt b t comparator off ∧ start ≤ off ∧ off < stop

/-! ## Matching items -/

theorem Chain.sorted {items : List Item} {off stop : ℕ} (h : Chain b off items stop) :
    items.Pairwise fun x y => x.off < y.off := by
  induction items generalizing off with
  | nil => exact List.Pairwise.nil
  | cons x xs ih =>
    obtain ⟨hoff, -, -, hlt, hxs⟩ := h
    refine List.pairwise_cons.mpr ⟨fun y hy => ?_, ih hxs⟩
    have := (Chain.range hxs hy).1
    have : x.off = off := hoff
    omega

/-- An item that is a result of a search. -/
def Item.Matches (comparator : Bytes → Bool) (x : Item) : Bool := x.name ≠ [] ∧ comparator x.name

theorem Represents.matchAt_iff (h : Represents b root t) (comparator : Bytes → Bool) (off : ℕ) :
    MatchAt b t comparator off ↔
      ∃ x ∈ treeItems b.firstNameOff [] t, x.off = off ∧ x.Matches comparator := by
  constructor
  · rintro ⟨q, n, e, hentry, rfl, hn⟩
    obtain ⟨x, hx, hname, hpath, hoff⟩ := h.exists_item_of_entryAt (by simp) hentry
    have hxn : x.name = n := by rw [Item.name, hpath]; simp
    exact ⟨x, hx, hoff, decide_eq_true ⟨hname, hxn.symm ▸ hn⟩⟩
  · rintro ⟨x, hx, rfl, hmatch⟩
    rw [Item.Matches, decide_eq_true_eq] at hmatch
    obtain ⟨hoff, hentry⟩ := h.off_eq (c := []) hx hmatch.1
    obtain ⟨e, he⟩ := Option.isSome_iff_exists.mp hentry
    have hne : x.path ≠ [] := fun h0 => hmatch.1 (by rw [Item.name, h0]; rfl)
    have hpath : x.path = x.path.dropLast ++ [x.name] := by
      rw [Item.name, List.getLast?_eq_some_getLast hne, Option.getD_some, List.dropLast_append_getLast]
    rw [hpath] at he hoff
    exact ⟨_, _, e, he, hoff.symm, hmatch.2⟩

/-- The matching items of a part of the image are what a search has to find there. -/
theorem Represents.matchesIn (h : Represents b root t) {pre ys zs : List Item} {start stop : ℕ}
    (hitems : treeItems b.firstNameOff [] t = pre ++ (ys ++ zs)) (hpre : Chain b b.firstNameOff pre start)
    (hys : Chain b start ys stop) (hzs : Chain b stop zs b.tail) (comparator : Bytes → Bool) :
    MatchesIn b t comparator start stop ((ys.filter (·.Matches comparator)).map Item.off) := by
  refine ⟨?_, fun off => ?_⟩
  · rw [List.pairwise_map]
    exact hys.sorted.sublist List.filter_sublist
  · rw [h.matchAt_iff, hitems]
    simp only [List.mem_map, List.mem_filter, List.mem_append]
    constructor
    · rintro ⟨x, ⟨hx, hmatch⟩, rfl⟩
      exact ⟨⟨x, .inr (.inl hx), rfl, hmatch⟩, hys.range hx⟩
    · rintro ⟨⟨x, hx, rfl, hmatch⟩, hfrom, hto⟩
      rcases hx with hx | hx | hx
      · have := (hpre.range hx).2
        omega
      · exact ⟨x, ⟨hx, hmatch⟩, rfl⟩
      · have := (hzs.range hx).1
        omega

/-! ## One call -/

namespace FsBuf

/-- The loop goes through the first of the items and finds those that match. -/
theorem searchFilesLoop_spec {xs : List Item} {cur stop : ℕ} (h : Chain b cur xs stop)
    (comparator : Bytes → Bool) (pcf : ℕ → ℕ → Bytes → Bool) (size fuel : ℕ) (results : List ℕ)
    (hfuel : stop ≤ cur + fuel) (hroom : results.length ≤ size) :
    ∃ ys zs off found, xs = ys ++ zs ∧ Chain b cur ys off ∧ Chain b off zs stop ∧
      found = (ys.filter (·.Matches comparator)).map Item.off ∧
      b.searchFilesLoop comparator pcf stop size fuel cur results = (off, results ++ found) ∧
      (results ++ found).length ≤ size ∧
      (results.length < size → pcf results.length cur (b.strAt cur) = false → off = cur → cur = stop) := by
  induction fuel generalizing cur xs results with
  | zero =>
    have hle := h.le
    obtain rfl : cur = stop := by omega
    exact ⟨[], xs, cur, [], rfl, rfl, h, rfl, by simp [searchFilesLoop], by simpa using hroom, fun _ _ _ => rfl⟩
  | succ fuel ih =>
    rw [searchFilesLoop]
    cases xs with
    | nil =>
      obtain rfl : cur = stop := h
      rw [if_neg (by omega)]
      exact ⟨[], [], cur, [], rfl, rfl, rfl, rfl, by simp, by simpa using hroom, fun _ _ _ => rfl⟩
    | cons x xs =>
      have hx : x.off = cur := h.1
      have hstr : b.strAt cur = x.name := h.2.1
      have hzero : b.head.get cur = 0 ↔ x.name = [] := h.2.2.1
      have hlt : cur < b.nextName cur := h.2.2.2.1
      have hxs : Chain b (b.nextName cur) xs stop := h.2.2.2.2
      have hcur := (h.range (List.mem_cons_self (a := x))).2
      by_cases hfull : results.length < size
      swap
      · -- the page is full
        rw [if_neg (by omega)]
        exact ⟨[], _, cur, [], rfl, rfl, h, rfl, by simp, by simpa using hroom, fun hlt => absurd hlt hfull⟩
      rw [if_pos ⟨by omega, hfull⟩]
      by_cases hpcf : pcf results.length cur (b.strAt cur) = true
      · -- the callback stops the scan
        simp only [hpcf, if_true]
        exact ⟨[], _, cur, [], rfl, rfl, h, rfl, by simp, by simpa using hroom, by simp⟩
      simp only [hpcf, Bool.false_eq_true, if_false]
      have hmatch : (b.head.get cur ≠ 0 ∧ comparator (b.strAt cur) = true) ↔ x.Matches comparator = true := by
        rw [Item.Matches, decide_eq_true_eq, hstr, ne_eq, hzero]
      obtain ⟨ys, zs, off, found, rfl, hys, hzs, rfl, heq, hlen, -⟩ := ih hxs
        (if b.head.get cur ≠ 0 ∧ comparator (b.strAt cur) = true then results ++ [cur] else results)
        (by omega) (by
          split
          · rw [List.length_append, List.length_singleton]
            omega
          · omega)
      rw [heq]
      have hcons : (if b.head.get cur ≠ 0 ∧ comparator (b.strAt cur) = true then results ++ [cur]
          else results) ++ (ys.filter (·.Matches comparator)).map Item.off =
          results ++ ((x :: ys).filter (·.Matches comparator)).map Item.off := by
        by_cases hm : x.Matches comparator = true
        · rw [if_pos (hmatch.mpr hm), List.filter_cons_of_pos hm, List.map_cons, hx, List.append_assoc]
          rfl
        · rw [if_neg fun h0 => hm (hmatch.mp h0), List.filter_cons_of_neg hm]
      rw [hcons] at hlen ⊢
      exact ⟨x :: ys, zs, off, _, rfl, ⟨hx, hstr, hzero, hlt, hys⟩, hzs, rfl, rfl, hlen,
        fun _ _ heq => absurd hys.le (by omega)⟩

end FsBuf

/-- One call of `search_files`: what it finds, and where it stops. -/
structure PageSpec (b : FsBuf) (t : Tree) (comparator : Bytes → Bool) (start stop size : ℕ)
    (page : ℕ × List ℕ) : Prop where
  found : MatchesIn b t comparator start page.1 page.2
  room : page.2.length ≤ size
  boundary : Boundary b t page.1
  le_start : start ≤ page.1
  le_stop : page.1 ≤ stop

namespace Represents

variable (h : Represents b root t)
include h

/-- The image can be cut at two boundaries. -/
theorem exists_cut {start stop : ℕ} (hstart : Boundary b t start) (hstop : Boundary b t stop)
    (hle : start ≤ stop) : ∃ pre ys zs, treeItems b.firstNameOff [] t = pre ++ (ys ++ zs) ∧
      Chain b b.firstNameOff pre start ∧ Chain b start ys stop ∧ Chain b stop zs b.tail := by
  obtain ⟨pre, rest, hitems, hpre, hrest⟩ := h.searchable.chain.split hstart
  have hmid : stop = b.tail ∨ ∃ x ∈ rest, x.off = stop := by
    rcases hstop with rfl | ⟨x, hx, rfl⟩
    · exact .inl rfl
    rw [hitems] at hx
    rcases List.mem_append.mp hx with hx | hx
    · have := (hpre.range hx).2
      omega
    · exact .inr ⟨x, hx, rfl⟩
  obtain ⟨ys, zs, rfl, hys, hzs⟩ := hrest.split hmid
  exact ⟨pre, ys, zs, hitems, hpre, hys, hzs⟩

omit h in
theorem boundary_of_chain {pre rest : List Item} {off : ℕ}
    (hitems : treeItems b.firstNameOff [] t = pre ++ rest) (hrest : Chain b off rest b.tail) :
    Boundary b t off := by
  cases rest with
  | nil => exact .inl hrest
  | cons x rest => exact .inr ⟨x, hitems ▸ List.mem_append_right _ List.mem_cons_self, hrest.1⟩

/-- A call finds what there is up to where it stops. It stays where it is only at the end of the range,
with no room, or when the callback stops it at once. -/
theorem searchFiles_page {start endOff : ℕ} (hstart : Boundary b t start)
    (hend : b.tail ≤ endOff ∨ Boundary b t endOff) (hle : start ≤ min b.tail endOff) (size : ℕ)
    (comparator : Bytes → Bool) (pcf : ℕ → ℕ → Bytes → Bool) :
    PageSpec b t comparator start (min b.tail endOff) size
      (b.searchFiles start endOff size comparator pcf) ∧
    (0 < size → pcf 0 start (b.strAt start) = false →
      (b.searchFiles start endOff size comparator pcf).1 = start → start = min b.tail endOff) := by
  have hmin : (if b.tail > endOff then endOff else b.tail) = min b.tail endOff := by
    split <;> omega
  have hstop : Boundary b t (min b.tail endOff) := by
    rcases hend with hend | hend
    · exact .inl (min_eq_left hend)
    · rcases le_total b.tail endOff with hle | hle
      · exact .inl (min_eq_left hle)
      · rwa [min_eq_right hle]
  obtain ⟨pre, xs, rest, hitems, hpre, hxs, hrest⟩ := h.exists_cut hstart hstop hle
  obtain ⟨ys, zs, off, found, rfl, hys, hzs, rfl, heq, hroom, hmove⟩ :=
    FsBuf.searchFilesLoop_spec hxs comparator pcf size b.tail [] (by omega) (Nat.zero_le _)
  rw [List.nil_append] at heq hroom
  rw [FsBuf.searchFiles, hmin]
  simp only [heq]
  have hzs' := hzs.append hrest
  have hsplit : treeItems b.firstNameOff [] t = pre ++ (ys ++ (zs ++ rest)) := by
    rw [hitems, List.append_assoc]
  exact ⟨⟨h.matchesIn hsplit hpre hys hzs' comparator, hroom,
    boundary_of_chain (hsplit.trans (List.append_assoc _ _ _).symm) hzs', hys.le, hzs.le⟩, hmove⟩

end Represents

/-! ## All calls -/

/-- What finds what there is up to one boundary and from there to another finds what there is. -/
theorem MatchesIn.append {comparator : Bytes → Bool} {start mid stop : ℕ} {xs ys : List ℕ}
    (hx : MatchesIn b t comparator start mid xs) (hy : MatchesIn b t comparator mid stop ys)
    (hle : start ≤ mid) (hle' : mid ≤ stop) : MatchesIn b t comparator start stop (xs ++ ys) := by
  refine ⟨List.pairwise_append.mpr ⟨hx.sorted, hy.sorted, fun i hi j hj => ?_⟩, fun off => ?_⟩
  · have hi := (hx.mem_iff i).mp hi
    have hj := (hy.mem_iff j).mp hj
    omega
  · rw [List.mem_append, hx.mem_iff, hy.mem_iff]
    constructor
    · rintro (⟨hm, hrange⟩ | ⟨hm, hrange⟩)
      · exact ⟨hm, by omega⟩
      · exact ⟨hm, by omega⟩
    · rintro ⟨hm, hrange⟩
      by_cases hlt : off < mid
      · exact .inl ⟨hm, by omega⟩
      · exact .inr ⟨hm, by omega⟩

/-- What a call is given besides the range and the comparator: the room for results, and the callback. -/
structure SearchCall where
  size : ℕ
  pcf : ℕ → ℕ → Bytes → Bool

/-- A caller that searches again from the offset that was returned: where it has come to, and the
results of all calls. -/
def searchAgain (b : FsBuf) (comparator : Bytes → Bool) (endOff : ℕ) : List SearchCall → ℕ → ℕ × List ℕ
  | [], start => (start, [])
  | call :: calls, start =>
    let page := b.searchFiles start endOff call.size comparator call.pcf
    let rest := searchAgain b comparator endOff calls page.1
    (rest.1, page.2 ++ rest.2)

namespace Represents

variable (h : Represents b root t)
include h

theorem searchAgain_spec {endOff : ℕ} (hend : b.tail ≤ endOff ∨ Boundary b t endOff)
    (comparator : Bytes → Bool) (calls : List SearchCall) {start : ℕ} (hstart : Boundary b t start)
    (hle : start ≤ min b.tail endOff) :
    MatchesIn b t comparator start (searchAgain b comparator endOff calls start).1
      (searchAgain b comparator endOff calls start).2 ∧
    start ≤ (searchAgain b comparator endOff calls start).1 ∧
    (searchAgain b comparator endOff calls start).1 ≤ min b.tail endOff ∧
    ((∀ call ∈ calls, 0 < call.size ∧ ∀ off name, call.pcf 0 off name = false) →
      min b.tail endOff ≤ start + calls.length →
      (searchAgain b comparator endOff calls start).1 = min b.tail endOff) := by
  induction calls generalizing start with
  | nil =>
    refine ⟨⟨List.Pairwise.nil, fun off => ?_⟩, le_rfl, hle, fun _ hlen => ?_⟩
    · simp only [searchAgain, List.not_mem_nil, false_iff]
      omega
    · rw [List.length_nil] at hlen
      simp only [searchAgain]
      omega
  | cons call calls ih =>
    obtain ⟨hpage, hmove⟩ := h.searchFiles_page hstart hend hle call.size comparator call.pcf
    obtain ⟨hfound, hfrom, hto, hall⟩ := ih hpage.boundary hpage.le_stop
    have hge := hpage.le_start
    refine ⟨hpage.found.append hfound hge hfrom, hge.trans hfrom, hto, fun hcalls hlen => ?_⟩
    have hcall := hcalls call List.mem_cons_self
    rw [List.length_cons] at hlen
    refine hall (fun c hc => hcalls c (List.mem_cons_of_mem _ hc)) ?_
    by_cases hsame : (b.searchFiles start endOff call.size comparator call.pcf).1 = start
    · have := hmove hcall.1 (hcall.2 _ _) hsame
      omega
    · omega

/-- `search_files` finds on each call what there is up to where it stops, and calls that follow each
other find everything once: all results between the first start and the last, and all of the range when
the end is reached. With room for results and a callback that lets a name through it is reached. -/
theorem searchFiles_spec {start endOff : ℕ} (hstart : Boundary b t start)
    (hend : b.tail ≤ endOff ∨ Boundary b t endOff) (hle : start ≤ min b.tail endOff)
    (comparator : Bytes → Bool) :
    (∀ size pcf, PageSpec b t comparator start (min b.tail endOff) size
      (b.searchFiles start endOff size comparator pcf)) ∧
    ∀ calls : List SearchCall,
      MatchesIn b t comparator start (searchAgain b comparator endOff calls start).1
        (searchAgain b comparator endOff calls start).2 ∧
      (searchAgain b comparator endOff calls start).1 ≤ min b.tail endOff ∧
      ((∀ call ∈ calls, 0 < call.size ∧ ∀ off name, call.pcf 0 off name = false) →
        min b.tail endOff ≤ start + calls.length →
        MatchesIn b t comparator start (min b.tail endOff)
          (searchAgain b comparator endOff calls start).2) := by
  refine ⟨fun size pcf => (h.searchFiles_page hstart hend hle size comparator pcf).1, fun calls => ?_⟩
  obtain ⟨hfound, -, hto, hall⟩ := h.searchAgain_spec hend comparator calls hstart hle
  refine ⟨hfound, hto, fun hcalls hlen => ?_⟩
  rwa [hall hcalls hlen] at hfound

end Represents

/-- Two calls with room for one result each, over the image of `/d/a` and `/b`. -/
theorem searchFiles_spec_sample :
    MatchesIn (imageBuf [47] (.node [100] (.leaf [97] .nil) (.leaf [98] .nil)) 64)
      (.node [100] (.leaf [97] .nil) (.leaf [98] .nil)) (fun _ => true) 10
      (searchAgain (imageBuf [47] (.node [100] (.leaf [97] .nil) (.leaf [98] .nil)) 64) (fun _ => true)
        64 [⟨1, fun _ _ _ => false⟩, ⟨1, fun _ _ _ => false⟩] 10).1
      (searchAgain (imageBuf [47] (.node [100] (.leaf [97] .nil) (.leaf [98] .nil)) 64) (fun _ => true)
        64 [⟨1, fun _ _ _ => false⟩, ⟨1, fun _ _ _ => false⟩] 10).2 := by
  have hrep := represents_imageBuf [47] (.node [100] (.leaf [97] .nil) (.leaf [98] .nil)) 64
    ⟨rfl, rfl, by decide⟩ (by decide) (by decide) (by decide)
  exact ((@Represents.searchFiles_spec _ _ _ hrep 10 64 (.inr ⟨_, List.mem_cons_self, rfl⟩) (.inl (by decide))
    (by decide) fun _ => true).2 _).1

end DeepinAnything
