import Mathlib.Logic.Function.Basic
import DeepinAnything.Server.EventAdaptor

/-!
# LFT files and the indexes in memory (`lftmanager.cpp`)

Every index in memory has an LFT file, which a later start loads. An index that has changed since its
file was written is in the dirty list; `sync` writes the files, and the file of an index that could not
be written is removed, so that it is not loaded later. An index leaves memory when its mount point goes
away, and when the manager is destroyed.

What an index is does not matter here: the content of a buffer is an element of any type.
-/

namespace DeepinAnything.Server

/-! ## The code -/

/-- The global maps of the manager, the content of the buffers, and the disk. Buffers are addresses; a
file name is empty for a buffer that has none. -/
structure LftManager (α : Type*) where
  fsBufMap : List (QString × ℕ)
  fsBufToFileMap : ℕ → QString
  fsBufDirtyList : List ℕ
  fsWatcherMap : List (QString × ℕ)
  content : ℕ → α
  disk : QString → Option α

namespace LftManager

variable {α : Type*} (s : LftManager α)

/-- The buffers of `_global_fsBufMap`. -/
def fsBufList : List ℕ := s.fsBufMap.map Prod.snd

/-- `markLFTFileToDirty` -/
def markLFTFileToDirty (buf : ℕ) : LftManager α :=
  { s with fsBufDirtyList := s.fsBufDirtyList.insert buf }

/-- `doLFTFileToDirty` -/
def doLFTFileToDirty (buf : ℕ) : LftManager α :=
  let lftFile := s.fsBufToFileMap buf
  if lftFile = [] then s else { s with disk := Function.update s.disk lftFile none }

/-- `cleanDirtyLFTFiles` -/
def cleanDirtyLFTFiles : LftManager α :=
  { s.fsBufDirtyList.foldl doLFTFileToDirty s with fsBufDirtyList := [] }

/-- `removeBuf` -/
def removeBuf (buf : ℕ) (removeLFTFile : Bool) : LftManager α :=
  let s := { s with fsBufMap := s.fsBufMap.filter (·.2 ≠ buf) }
  let s := if removeLFTFile then s.doLFTFileToDirty buf else s
  { s with
    fsBufDirtyList := s.fsBufDirtyList.filter (· ≠ buf)
    fsBufToFileMap := Function.update s.fsBufToFileMap buf [] }

/-- The path is the mount point or lies below it. -/
def below (mountPoint path : QString) : Bool := (mountPoint ++ ['/']).isPrefixOf (path ++ ['/'])

/-- The loop of `sync` over the rest of the map; `save` says where `save_fs_buf` succeeds. -/
def syncLoop (save : QString → Bool) (mountPoint : QString) :
    List (QString × ℕ) → List ℕ → LftManager α → LftManager α
  | [], _, s => s
  | (path, buf) :: rest, savedBufList, s =>
    if mountPoint ≠ [] ∧ ¬ below mountPoint path then syncLoop save mountPoint rest savedBufList s
    else if buf ∈ savedBufList then syncLoop save mountPoint rest savedBufList s
    else
      let lftFile := s.fsBufToFileMap buf
      if lftFile = [] then syncLoop save mountPoint rest savedBufList s
      else if save path then
        syncLoop save mountPoint rest (savedBufList ++ [buf]) { s with
          disk := Function.update s.disk lftFile (some (s.content buf))
          fsBufDirtyList := s.fsBufDirtyList.filter (· ≠ buf) }
      else syncLoop save mountPoint rest savedBufList s

/-- `sync`; it is not `ready` if it is refused, or if the directory for the files cannot be made. -/
def sync (ready : Bool) (save : QString → Bool) (mountPoint : QString) : LftManager α :=
  if ready then syncLoop save mountPoint s.fsBufMap [] s else s

/-- `_syncAll` -/
def syncAll (ready : Bool) (save : QString → Bool) : LftManager α :=
  (s.sync ready save []).cleanDirtyLFTFiles

/-- The end of `insertFileToLFTBuf`, `removeFileFromLFTBuf` and `renameFileOfLFTBuf`: the buffer is what the call has
left of it, and it is marked if the call has returned 0. -/
def change (buf : ℕ) (ok : Bool) (image : α) : LftManager α :=
  let s := { s with content := Function.update s.content buf image }
  if ok then s.markLFTFileToDirty buf else s

/-- `lftBuinding` -/
def lftBuinding (path : QString) : Bool := (s.fsWatcherMap.lookup path).isSome

/-- `cancelBuild`, which drops the build under all its paths. -/
def cancelBuild (path : QString) : LftManager α :=
  match s.fsWatcherMap.lookup path with
  | none => s
  | some watcher => { s with fsWatcherMap := s.fsWatcherMap.filter (·.2 ≠ watcher) }

/-- `hasLFTSubdirectories` -/
def hasLFTSubdirectories (path : QString) : List QString :=
  let path := if ['/'].isSuffixOf path then path else path ++ ['/']
  (s.fsBufMap.map Prod.fst).filter fun key => path.isPrefixOf (key ++ ['/'])

/-- One turn of the loop of `onMountRemoved`. -/
def unmountPath (ready : Bool) (save : QString → Bool) (path : QString) : LftManager α :=
  match s.fsBufMap.lookup path with
  | none => s
  | some buf =>
    if s.lftBuinding path then s.cancelBuild path
    else
      let s := if buf ∈ s.fsBufDirtyList then s.sync ready save path else s
      s.removeBuf buf false

/-- `onMountRemoved`; what the calls of `sync` do may differ from path to path. -/
def onMountRemoved (ready : QString → Bool) (save : QString → QString → Bool) (mountRoot : QString) :
    LftManager α :=
  (s.hasLFTSubdirectories mountRoot).foldl
    (fun s path => s.unmountPath (ready path) (save path) path) s

/-! ## Files that are up to date -/

variable {s} {s' : LftManager α} {ready : Bool} {save : QString → Bool} {mountPoint : QString}

/-- The LFT file of the buffer holds what the buffer holds, or there is none. -/
def Settled (s : LftManager α) (buf : ℕ) : Prop :=
  s.fsBufToFileMap buf ≠ [] → ∀ image ∈ s.disk (s.fsBufToFileMap buf), image = s.content buf

/-- Different buffers in memory have different files. -/
def Apart (s : LftManager α) : Prop :=
  ∀ b ∈ s.fsBufList, ∀ b' ∈ s.fsBufList,
    s.fsBufToFileMap b = s.fsBufToFileMap b' → s.fsBufToFileMap b ≠ [] → b = b'

/-- Different buffers in memory have different files, and the file of a buffer that is not dirty is
settled. -/
structure Kept (s : LftManager α) : Prop where
  injective : s.Apart
  clean : ∀ b ∈ s.fsBufList, b ∉ s.fsBufDirtyList → s.Settled b

/-- `save_fs_buf` succeeds for the buffer at one of its paths in the map. -/
def Saves (s : LftManager α) (save : QString → Bool) (mountPoint : QString)
    (entries : List (QString × ℕ)) (buf : ℕ) : Prop :=
  s.fsBufToFileMap buf ≠ [] ∧ ∃ path, (path, buf) ∈ entries ∧
    (mountPoint = [] ∨ below mountPoint path) ∧ save path

/-- What a call of `sync` leaves: the files of the buffers that it has saved, and their marks gone. -/
structure Synced (s s' : LftManager α) (saved : ℕ → Prop) : Prop where
  fsBufMap_eq : s'.fsBufMap = s.fsBufMap
  fsBufToFileMap_eq : s'.fsBufToFileMap = s.fsBufToFileMap
  fsWatcherMap_eq : s'.fsWatcherMap = s.fsWatcherMap
  content_eq : s'.content = s.content
  dirty_iff : ∀ b, b ∈ s'.fsBufDirtyList ↔ b ∈ s.fsBufDirtyList ∧ ¬ saved b
  written : ∀ b ∈ s.fsBufList, saved b → s'.disk (s.fsBufToFileMap b) = some (s.content b)
  untouched : ∀ file, (∀ b ∈ s.fsBufList, saved b → s.fsBufToFileMap b ≠ file) →
    s'.disk file = s.disk file

theorem saves_cons {path : QString} {buf b : ℕ} {rest : List (QString × ℕ)} :
    s.Saves save mountPoint ((path, buf) :: rest) b ↔ s.Saves save mountPoint rest b ∨
      b = buf ∧ s.fsBufToFileMap buf ≠ [] ∧ (mountPoint = [] ∨ below mountPoint path) ∧ save path := by
  constructor
  · rintro ⟨hfile, path', hmem, hbelow, hsave⟩
    rcases List.mem_cons.mp hmem with heq | hmem
    · obtain ⟨rfl, rfl⟩ := Prod.mk.inj heq
      exact .inr ⟨rfl, hfile, hbelow, hsave⟩
    · exact .inl ⟨hfile, path', hmem, hbelow, hsave⟩
  · rintro (⟨hfile, path', hmem, hrest⟩ | ⟨rfl, hfile, hrest⟩)
    · exact ⟨hfile, path', List.mem_cons_of_mem _ hmem, hrest⟩
    · exact ⟨hfile, path, by simp, hrest⟩

namespace Synced

variable {saved saved' : ℕ → Prop}

theorem congr (h : s.Synced s' saved) (hsaved : ∀ b, saved' b ↔ saved b) : s.Synced s' saved' := by
  obtain rfl : saved' = saved := funext fun b => propext (hsaved b)
  exact h

theorem refl (h : ∀ b, ¬ saved b) : s.Synced s saved :=
  ⟨rfl, rfl, rfl, rfl, fun b => (and_iff_left (h b)).symm, fun b _ hb => absurd hb (h b), fun _ _ => rfl⟩

/-- The file of a buffer that is not saved stays what it was. -/
theorem kept (h : s.Synced s' saved) (hinj : s.Apart) {b : ℕ}
    (hb : b ∈ s.fsBufList) (hfile : s.fsBufToFileMap b ≠ []) (hsaved : ¬ saved b) :
    s'.disk (s.fsBufToFileMap b) = s.disk (s.fsBufToFileMap b) := by
  refine h.untouched _ fun b' hb' hsaved' heq => hsaved ?_
  rwa [hinj b hb b' hb' heq.symm hfile]

end Synced

/-- The loop of `sync`, with the buffers that have been saved already. -/
theorem syncLoop_synced (hinj : s.Apart) {entries : List (QString × ℕ)}
    (hentries : ∀ e ∈ entries, e.2 ∈ s.fsBufList) {saved : List ℕ}
    (hsaved : ∀ b ∈ saved, b ∉ s.fsBufDirtyList ∧ b ∈ s.fsBufList ∧ s.fsBufToFileMap b ≠ [] ∧
      s.disk (s.fsBufToFileMap b) = some (s.content b)) :
    s.Synced (syncLoop save mountPoint entries saved s) (s.Saves save mountPoint entries) := by
  induction entries generalizing s saved with
  | nil => exact .refl fun b ⟨_, path, hmem, _⟩ => absurd hmem List.not_mem_nil
  | cons e rest ih =>
    obtain ⟨path, buf⟩ := e
    have hbuf : buf ∈ s.fsBufList := hentries (path, buf) (by simp)
    have hrest : ∀ e ∈ rest, e.2 ∈ s.fsBufList := fun e he => hentries e (List.mem_cons_of_mem _ he)
    rw [syncLoop]
    by_cases hbelow : mountPoint ≠ [] ∧ ¬ below mountPoint path
    · rw [if_pos hbelow]
      refine (ih hinj hrest hsaved).congr fun b => ?_
      rw [saves_cons, or_iff_left]
      rintro ⟨-, -, hpath | hpath, -⟩
      · exact hbelow.1 hpath
      · exact hbelow.2 hpath
    rw [if_neg hbelow]
    by_cases hmem : buf ∈ saved
    · -- what has been saved is not saved again
      rw [if_pos hmem]
      have h := ih hinj hrest hsaved
      obtain ⟨hclean, -, hfile, hdisk⟩ := hsaved buf hmem
      refine ⟨h.1, h.2, h.3, h.4, fun b => ?_, fun b hb hsaves => ?_, fun file hfree => ?_⟩
      · rw [h.dirty_iff, saves_cons]
        refine and_congr_right fun hdirty => not_congr (or_iff_left ?_).symm
        rintro ⟨rfl, -⟩
        exact hclean hdirty
      · by_cases hagain : s.Saves save mountPoint rest b
        · exact h.written b hb hagain
        · obtain ⟨rfl, -⟩ := (saves_cons.mp hsaves).resolve_left hagain
          rw [h.kept hinj hb hfile hagain, hdisk]
      · exact h.untouched file fun b hb hsaves => hfree b hb (saves_cons.mpr (.inl hsaves))
    rw [if_neg hmem]
    simp only
    by_cases hfile : s.fsBufToFileMap buf = []
    · rw [if_pos hfile]
      refine (ih hinj hrest hsaved).congr fun b => ?_
      rw [saves_cons, or_iff_left]
      exact fun hb => hb.2.1 hfile
    rw [if_neg hfile]
    by_cases hsave : save path = true
    · rw [if_pos hsave]
      generalize hs₁ : ({ s with
        disk := Function.update s.disk (s.fsBufToFileMap buf) (some (s.content buf))
        fsBufDirtyList := s.fsBufDirtyList.filter (· ≠ buf) } : LftManager α) = s₁
      have hbuf₁ : s₁.disk (s.fsBufToFileMap buf) = some (s.content buf) := by
        rw [← hs₁]
        exact Function.update_self _ _ _
      have hother : ∀ file, file ≠ s.fsBufToFileMap buf → s₁.disk file = s.disk file := fun file hne => by
        rw [← hs₁]
        exact Function.update_of_ne hne _ _
      have hdirty : ∀ b, b ∈ s₁.fsBufDirtyList ↔ b ∈ s.fsBufDirtyList ∧ b ≠ buf := fun b => by
        rw [← hs₁]
        simp
      have hmaps : s₁.fsBufMap = s.fsBufMap ∧ s₁.fsBufToFileMap = s.fsBufToFileMap ∧
          s₁.fsWatcherMap = s.fsWatcherMap ∧ s₁.content = s.content := by
        rw [← hs₁]
        exact ⟨rfl, rfl, rfl, rfl⟩
      obtain ⟨hmap, hfiles, hwatchers, hcontent⟩ := hmaps
      have hlist : s₁.fsBufList = s.fsBufList := congrArg (List.map Prod.snd) hmap
      have hinj₁ : s₁.Apart := by
        rw [Apart, hlist, hfiles]
        exact hinj
      have hsaved₁ : ∀ b ∈ saved ++ [buf], b ∉ s₁.fsBufDirtyList ∧ b ∈ s₁.fsBufList ∧
          s₁.fsBufToFileMap b ≠ [] ∧ s₁.disk (s₁.fsBufToFileMap b) = some (s₁.content b) := by
        intro b hb
        rw [hlist, hfiles, hcontent, hdirty]
        rcases List.mem_append.mp hb with hb | hb
        · obtain ⟨hclean, hb', hfileb, hdisk⟩ := hsaved b hb
          have hne : b ≠ buf := fun heq => hmem (heq ▸ hb)
          refine ⟨fun h => hclean h.1, hb', hfileb, ?_⟩
          rw [hother _ fun heq => hne (hinj b hb' buf hbuf heq hfileb), hdisk]
        · obtain rfl := List.mem_singleton.mp hb
          exact ⟨fun h => h.2 rfl, hbuf, hfile, hbuf₁⟩
      have h := @ih s₁ hinj₁ (by rw [hlist]; exact hrest)
        (saved ++ [buf]) hsaved₁
      have hsaves : ∀ b, s.Saves save mountPoint ((path, buf) :: rest) b ↔
          s₁.Saves save mountPoint rest b ∨ b = buf := fun b => by
        rw [saves_cons, Saves, Saves, hfiles]
        refine or_congr_right ⟨fun hb => hb.1, fun hb => ⟨hb, hfile, ?_, hsave⟩⟩
        by_contra hnot
        rw [not_or] at hnot
        exact hbelow hnot
      refine ⟨h.1.trans hmap, h.2.trans hfiles, h.3.trans hwatchers, h.4.trans hcontent, fun b => ?_,
        fun b hb hb' => ?_, fun file hfree => ?_⟩
      · rw [h.dirty_iff, hdirty, hsaves, not_or, and_assoc, and_comm (a := b ≠ buf)]
      · by_cases hagain : s₁.Saves save mountPoint rest b
        · have := h.written b (hlist ▸ hb) hagain
          rwa [hfiles, hcontent] at this
        · obtain rfl := ((hsaves b).mp hb').resolve_left hagain
          have := h.kept hinj₁ (hlist ▸ hb) (by rw [hfiles]; exact hfile)
            hagain
          rw [hfiles] at this
          rw [this, hbuf₁]
      · rw [h.untouched file fun b hb hb' => ?_, hother file fun heq => ?_]
        · exact hfree buf hbuf ((hsaves buf).mpr (.inr rfl)) heq.symm
        · rw [hfiles]
          exact hfree b (hlist ▸ hb) ((hsaves b).mpr (.inl hb'))
    · rw [if_neg hsave]
      refine (ih hinj hrest hsaved).congr fun b => ?_
      rw [saves_cons, or_iff_left]
      exact fun hb => hsave hb.2.2.2

theorem Synced.fsBufList_eq {saved : ℕ → Prop} (h : s.Synced s' saved) : s'.fsBufList = s.fsBufList :=
  congrArg (List.map Prod.snd) h.fsBufMap_eq

theorem Synced.apart {saved : ℕ → Prop} (h : s.Synced s' saved) (hs : s.Apart) : s'.Apart := by
  rw [Apart, h.fsBufList_eq, h.fsBufToFileMap_eq]
  exact hs

theorem Synced.trans_kept {saved : ℕ → Prop} (h : s.Synced s' saved) (hs : s.Kept) : s'.Kept := by
  refine ⟨h.apart hs.injective, fun b hb hclean hfile image himage => ?_⟩
  rw [h.fsBufList_eq] at hb
  rw [h.fsBufToFileMap_eq] at hfile himage
  rw [h.content_eq]
  by_cases hsaved : saved b
  · rw [h.written b hb hsaved] at himage
    exact (Option.some.inj himage).symm
  · rw [h.kept hs.injective hb hfile hsaved] at himage
    exact hs.clean b hb (fun hd => hclean ((h.dirty_iff b).mpr ⟨hd, hsaved⟩)) hfile image himage

theorem doLFTFileToDirty_eq (s : LftManager α) (buf : ℕ) : s.doLFTFileToDirty buf =
    { s with disk := fun file => if file ≠ [] ∧ s.fsBufToFileMap buf = file then none else s.disk file } := by
  rw [doLFTFileToDirty]
  by_cases hname : s.fsBufToFileMap buf = []
  · have hsame : (fun file => if file ≠ [] ∧ s.fsBufToFileMap buf = file then none else s.disk file) = s.disk := by
      funext file
      rw [if_neg]
      rintro ⟨hne, rfl⟩
      exact hne hname
    rw [if_pos hname, hsame]
  · rw [if_neg hname]
    congr 1
    funext file
    by_cases hfile : s.fsBufToFileMap buf = file
    · subst hfile
      rw [Function.update_self, if_pos ⟨hname, rfl⟩]
    · rw [Function.update_of_ne (Ne.symm hfile), if_neg fun h => hfile h.2]

/-- Cleaning removes the files of the dirty buffers and nothing else. -/
theorem foldl_doLFTFileToDirty (l : List ℕ) (s : LftManager α) : l.foldl doLFTFileToDirty s =
    { s with
      disk := fun file => if file ≠ [] ∧ ∃ b ∈ l, s.fsBufToFileMap b = file then none else s.disk file } := by
  induction l generalizing s with
  | nil => simp
  | cons b l ih =>
    rw [List.foldl_cons, ih, doLFTFileToDirty_eq]
    congr 1
    funext file
    simp only [List.exists_mem_cons_iff, and_or_left]
    by_cases hrest : file ≠ [] ∧ ∃ b ∈ l, s.fsBufToFileMap b = file
    · rw [if_pos hrest, if_pos (.inr hrest)]
    · rw [if_neg hrest]
      simp only [or_iff_left hrest]

theorem disk_cleanDirtyLFTFiles {buf : ℕ} (hfile : s.fsBufToFileMap buf ≠ []) :
    s.cleanDirtyLFTFiles.disk (s.fsBufToFileMap buf) =
      if ∃ b ∈ s.fsBufDirtyList, s.fsBufToFileMap b = s.fsBufToFileMap buf then none
      else s.disk (s.fsBufToFileMap buf) := by
  show (s.fsBufDirtyList.foldl doLFTFileToDirty s).disk _ = _
  rw [foldl_doLFTFileToDirty]
  simp only [ne_eq, hfile, not_false_eq_true, true_and]

theorem cleanDirtyLFTFiles_frame : s.cleanDirtyLFTFiles.fsBufMap = s.fsBufMap ∧
    s.cleanDirtyLFTFiles.fsBufToFileMap = s.fsBufToFileMap ∧ s.cleanDirtyLFTFiles.content = s.content ∧
    s.cleanDirtyLFTFiles.fsBufDirtyList = [] := by
  rw [cleanDirtyLFTFiles, foldl_doLFTFileToDirty]
  exact ⟨rfl, rfl, rfl, rfl⟩

/-- After cleaning, the file of a buffer is settled just if it was, or if it was removed as a dirty one. -/
theorem settled_cleanDirtyLFTFiles {buf : ℕ} : s.cleanDirtyLFTFiles.Settled buf ↔
    s.Settled buf ∨ ∃ b ∈ s.fsBufDirtyList, s.fsBufToFileMap b = s.fsBufToFileMap buf := by
  obtain ⟨-, hfiles, hcontent, -⟩ := cleanDirtyLFTFiles_frame (s := s)
  rw [Settled, Settled, hfiles, hcontent]
  by_cases hfile : s.fsBufToFileMap buf = []
  · simp [hfile]
  rw [disk_cleanDirtyLFTFiles hfile]
  split
  · rename_i hremoved
    exact iff_of_true (fun _ image himage => by cases himage) (.inr hremoved)
  · rename_i hkept
    exact (or_iff_left hkept).symm

/-- What is in memory after a buffer has been removed. -/
theorem mem_removeBuf {b buf : ℕ} :
    b ∈ (s.removeBuf buf false).fsBufList ↔ b ∈ s.fsBufList ∧ b ≠ buf := by
  show b ∈ (s.fsBufMap.filter (·.2 ≠ buf)).map Prod.snd ↔ b ∈ s.fsBufMap.map Prod.snd ∧ b ≠ buf
  simp only [List.mem_map, List.mem_filter, decide_eq_true_eq]
  constructor
  · rintro ⟨e, ⟨he, hne⟩, rfl⟩
    exact ⟨⟨e, he, rfl⟩, hne⟩
  · rintro ⟨⟨e, he, rfl⟩, hne⟩
    exact ⟨e, ⟨he, hne⟩, rfl⟩

theorem fsBufToFileMap_removeBuf {b buf : ℕ} (h : b ≠ buf) :
    (s.removeBuf buf false).fsBufToFileMap b = s.fsBufToFileMap b :=
  Function.update_of_ne h _ _

namespace Apart

theorem sync (h : s.Apart) (ready : Bool) (save : QString → Bool) (mountPoint : QString) :
    s.Synced (s.sync ready save mountPoint)
      fun b => ready = true ∧ s.Saves save mountPoint s.fsBufMap b := by
  rw [LftManager.sync]
  by_cases hready : ready = true
  · rw [if_pos hready]
    exact (syncLoop_synced h (fun e he => List.mem_map_of_mem he) (by simp)).congr
      fun b => and_iff_right hready
  · rw [if_neg hready]
    exact .refl fun b hb => hready hb.1

theorem cleanDirtyLFTFiles (h : s.Apart) : s.cleanDirtyLFTFiles.Apart := by
  obtain ⟨hmap, hfiles, -⟩ := cleanDirtyLFTFiles_frame (s := s)
  rw [Apart, fsBufList, hmap, hfiles]
  exact h

theorem change (h : s.Apart) (buf : ℕ) (ok : Bool) (image : α) : (s.change buf ok image).Apart := by
  cases ok <;> exact h

theorem removeBuf (h : s.Apart) (buf : ℕ) : (s.removeBuf buf false).Apart := by
  intro b hb b' hb' heq hfile
  rw [mem_removeBuf] at hb hb'
  rw [fsBufToFileMap_removeBuf hb.2, fsBufToFileMap_removeBuf hb'.2] at heq
  rw [fsBufToFileMap_removeBuf hb.2] at hfile
  exact h b hb.1 b' hb'.1 heq hfile

/-- What a turn of the loop of `onMountRemoved` does: without a buffer at the path, or while it is being built, only a
build may be dropped; otherwise the buffer is removed, with a call of `sync` before if it is dirty. -/
theorem unmountPath_cases (h : s.Apart) (ready : Bool) (save : QString → Bool) (path : QString) :
    ((∀ buf, s.fsBufMap.lookup path = some buf → s.lftBuinding path = true) ∧
      ∃ watchers, s.unmountPath ready save path = { s with fsWatcherMap := watchers }) ∨
    ∃ buf s', s.fsBufMap.lookup path = some buf ∧ s.lftBuinding path = false ∧
      s.Synced s' (fun b => buf ∈ s.fsBufDirtyList ∧ ready = true ∧ s.Saves save path s.fsBufMap b) ∧
      s.unmountPath ready save path = s'.removeBuf buf false := by
  cases hlookup : s.fsBufMap.lookup path with
  | none =>
    refine .inl ⟨by simp, s.fsWatcherMap, ?_⟩
    rw [LftManager.unmountPath, hlookup]
  | some buf =>
    cases hidle : s.lftBuinding path with
    | true =>
      refine .inl ⟨by simp, ?_⟩
      rw [LftManager.unmountPath, hlookup]
      simp only [hidle, if_true]
      unfold cancelBuild
      split
      · exact ⟨s.fsWatcherMap, rfl⟩
      · exact ⟨_, rfl⟩
    | false =>
      refine .inr ⟨buf, if buf ∈ s.fsBufDirtyList then s.sync ready save path else s, rfl, rfl, ?_, ?_⟩
      · split
        · rename_i hdirty
          exact (h.sync ready save path).congr fun b => and_iff_right hdirty
        · rename_i hdirty
          exact .refl fun b hb => hdirty hb.1
      · rw [LftManager.unmountPath, hlookup]
        simp only [hidle, Bool.false_eq_true, if_false]

theorem unmountPath (h : s.Apart) (ready : Bool) (save : QString → Bool) (path : QString) :
    (s.unmountPath ready save path).Apart := by
  obtain ⟨-, watchers, heq⟩ | ⟨buf, s', -, -, hsync, heq⟩ := h.unmountPath_cases ready save path
  · rw [heq]
    exact h
  · rw [heq]
    exact (hsync.apart h).removeBuf buf

end Apart

namespace Kept

theorem cleanDirtyLFTFiles (h : s.Kept) : s.cleanDirtyLFTFiles.Kept := by
  refine ⟨h.injective.cleanDirtyLFTFiles, fun b hb _ => settled_cleanDirtyLFTFiles.mpr ?_⟩
  obtain ⟨hmap, -⟩ := cleanDirtyLFTFiles_frame (s := s)
  by_cases hdirty : b ∈ s.fsBufDirtyList
  · exact .inr ⟨b, hdirty, rfl⟩
  · rw [fsBufList, hmap] at hb
    exact .inl (h.clean b hb hdirty)

theorem change (h : s.Kept) (buf : ℕ) (image : α) : (s.change buf true image).Kept := by
  refine ⟨h.injective.change buf true image, fun b hb hclean => ?_⟩
  have hne : b ≠ buf := by
    rintro rfl
    exact hclean (List.mem_insert_iff.mpr (.inl rfl))
  have hclean' : b ∉ s.fsBufDirtyList := fun hd => hclean (List.mem_insert_iff.mpr (.inr hd))
  have hcontent : (s.change buf true image).content b = s.content b := Function.update_of_ne hne _ _
  intro hfile image' himage
  rw [hcontent]
  exact h.clean b hb hclean' hfile image' himage

theorem removeBuf (h : s.Kept) (buf : ℕ) : (s.removeBuf buf false).Kept := by
  refine ⟨h.injective.removeBuf buf, fun b hb hclean hfile image himage => ?_⟩
  rw [mem_removeBuf] at hb
  rw [fsBufToFileMap_removeBuf hb.2] at hfile himage
  refine h.clean b hb.1 (fun hdirty => hclean ?_) hfile image himage
  exact List.mem_filter.mpr ⟨hdirty, by simpa using hb.2⟩

theorem unmountPath (h : s.Kept) (ready : Bool) (save : QString → Bool) (path : QString) :
    (s.unmountPath ready save path).Kept := by
  obtain ⟨-, watchers, heq⟩ | ⟨buf, s', -, -, hsync, heq⟩ := h.injective.unmountPath_cases ready save path
  · rw [heq]
    exact ⟨h.injective, h.clean⟩
  · rw [heq]
    exact (hsync.trans_kept h).removeBuf buf

end Kept

/-! ## Runs -/

/-- What happens before the manager is destroyed: a handler has called for a buffer in memory, the files are written,
or a mount point goes away. If the run is `marking`, a call that fails leaves the buffer as it was; `rename_path` can
return `ERR_NO_MEM` when it has changed it. -/
inductive Step (marking : Bool) : LftManager α → LftManager α → Prop
  | change (s : LftManager α) {buf : ℕ} (hbuf : buf ∈ s.fsBufList) (ok : Bool) (image : α)
      (hmarks : marking = true → ok = true ∨ image = s.content buf) : Step marking s (s.change buf ok image)
  | sync (s : LftManager α) (ready : Bool) (save : QString → Bool) (mountPoint : QString) :
      Step marking s (s.sync ready save mountPoint)
  | syncAll (s : LftManager α) (ready : Bool) (save : QString → Bool) : Step marking s (s.syncAll ready save)
  | unmountPath (s : LftManager α) (ready : Bool) (save : QString → Bool) (path : QString) :
      Step marking s (s.unmountPath ready save path)

/-- The states of runs that start with files that are up to date. -/
inductive Reachable (marking : Bool) : LftManager α → Prop
  | initial {s : LftManager α} (h : s.Kept) (hdirty : ∀ b ∈ s.fsBufDirtyList, b ∈ s.fsBufList) : Reachable marking s
  | step {s s' : LftManager α} (hs : Reachable marking s) (hstep : Step marking s s') : Reachable marking s'

variable {marking : Bool}

/-- `onMountRemoved` as a whole is made of such steps. -/
theorem Reachable.onMountRemoved (h : Reachable marking s) (ready : QString → Bool)
    (save : QString → QString → Bool) (mountRoot : QString) :
    Reachable marking (s.onMountRemoved ready save mountRoot) := by
  rw [LftManager.onMountRemoved]
  generalize s.hasLFTSubdirectories mountRoot = paths
  induction paths generalizing s with
  | nil => exact h
  | cons path paths ih => exact ih (h.step (.unmountPath s (ready path) (save path) path))

/-- In every run the files of different buffers are different, and what is dirty is in memory. -/
theorem Reachable.apart (h : Reachable marking s) : s.Apart ∧ ∀ b ∈ s.fsBufDirtyList, b ∈ s.fsBufList := by
  induction h with
  | initial h hdirty => exact ⟨h.injective, hdirty⟩
  | @step s s' _ hstep ih =>
    obtain ⟨hapart, hdirty⟩ := ih
    cases hstep with
    | change hbuf ok image =>
      refine ⟨hapart.change _ ok image, fun b hb => ?_⟩
      cases ok with
      | false => exact hdirty b hb
      | true =>
        rcases List.mem_insert_iff.mp hb with rfl | hb
        · exact hbuf
        · exact hdirty b hb
    | sync ready save mountPoint =>
      have hsync := hapart.sync ready save mountPoint
      refine ⟨hsync.apart hapart, fun b hb => ?_⟩
      rw [hsync.fsBufList_eq]
      exact hdirty b ((hsync.dirty_iff b).mp hb).1
    | syncAll ready save =>
      refine ⟨((hapart.sync ready save []).apart hapart).cleanDirtyLFTFiles, fun b hb => ?_⟩
      obtain ⟨-, -, -, hnil⟩ := cleanDirtyLFTFiles_frame (s := s.sync ready save [])
      rw [syncAll, hnil] at hb
      cases hb
    | unmountPath ready save path =>
      refine ⟨hapart.unmountPath ready save path, ?_⟩
      obtain ⟨-, watchers, heq⟩ | ⟨buf, s', -, -, hsync, heq⟩ := hapart.unmountPath_cases ready save path
      · rw [heq]
        exact hdirty
      · rw [heq]
        intro b hb
        obtain ⟨hmem, hne⟩ := List.mem_filter.mp hb
        rw [mem_removeBuf, hsync.fsBufList_eq]
        exact ⟨hdirty b ((hsync.dirty_iff b).mp hmem).1, by simpa using hne⟩

/-- If every call that has changed a buffer has marked it, a file that is out of date is that of a dirty buffer. -/
theorem Reachable.kept (h : Reachable true s) : s.Kept := by
  induction h with
  | initial h => exact h
  | @step s s' _ hstep ih =>
    cases hstep with
    | change hbuf ok image hmarks =>
      cases ok with
      | true => exact ih.change _ image
      | false =>
        rw [LftManager.change, (hmarks rfl).resolve_left (by decide), Function.update_eq_self]
        exact ih
    | sync ready save mountPoint => exact (ih.injective.sync ready save mountPoint).trans_kept ih
    | syncAll ready save => exact ((ih.injective.sync ready save []).trans_kept ih).cleanDirtyLFTFiles
    | unmountPath ready save path => exact ih.unmountPath ready save path

/-- The file of a buffer, as it is in a later state, holds the content that the buffer had last, or
there is none. -/
def LeftSettled (s s' : LftManager α) (buf : ℕ) : Prop :=
  s.fsBufToFileMap buf ≠ [] → ∀ image ∈ s'.disk (s.fsBufToFileMap buf), image = s.content buf

theorem LeftSettled.congr {s₁ s₂ : LftManager α} (hdisk : s₁.disk = s₂.disk) {buf : ℕ} :
    s.LeftSettled s₁ buf ↔ s.LeftSettled s₂ buf := by
  rw [LeftSettled, LeftSettled, hdisk]

theorem mem_of_lookup {path : QString} {buf : ℕ} {entries : List (QString × ℕ)}
    (h : entries.lookup path = some buf) : (path, buf) ∈ entries := by
  obtain ⟨l₁, l₂, rfl, -⟩ := List.lookup_eq_some_iff.mp h
  simp

/-- One index with its file, both with the content `1`. -/
def sampleSaved : LftManager ℕ where
  fsBufMap := [("/data".toList, 8)]
  fsBufToFileMap := fun buf => if buf = 8 then "data.lft".toList else []
  fsBufDirtyList := []
  fsWatcherMap := []
  content := fun _ => 1
  disk := fun file => if file = "data.lft".toList then some 1 else none

/-- A call has changed the content to `2`. -/
def sampleManager (ok : Bool) : LftManager ℕ := sampleSaved.change 8 ok 2

end LftManager

end DeepinAnything.Server
