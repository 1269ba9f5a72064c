import Mathlib.Logic.Relation
import Mathlib.Data.Fintype.EquivFin
import DeepinAnything.Server.Buffers
import DeepinAnything.FsBuf.Basic

/-!
# Manual and automatic indexes (`lftmanager.cpp`)

The file of an index ends with `.LFT` when the index was made automatically and with `.lft` when it was asked
for; `allowableBuf`, `removePath` and `_cleanAllIndex` go by these four characters. `refresh` installs an index
under the file it has read, and has an index without entries built again by `addPath`, whose second
argument is to say whether the index is automatic.
-/

namespace DeepinAnything.Server

open ByteMem

/-! ## The code -/

/-- The digits of `toPercentEncoding`. -/
def hexDigit (n : ℕ) : Char := "0123456789ABCDEF".toList.getD n '0'

/-- `toPercentEncoding(":", "/")` of one byte: letters, digits, `-`, `.`, `_`, `~` and `:` stand for themselves. -/
def percentByte (b : UInt8) : QString :=
  if (65 ≤ b ∧ b ≤ 90) ∨ (97 ≤ b ∧ b ≤ 122) ∨ (48 ≤ b ∧ b ≤ 57) ∨ b ∈ [45, 46, 95, 126, 58] then
    [Char.ofNat b.toNat]
  else ['%', hexDigit (b.toNat / 16), hexDigit (b.toNat % 16)]

/-- `getLFTFileByPath`, with what `pathToSerialUri` says of the path. -/
def getLFTFileByPath (cachePath : QString) (serialUri : Bytes) (autoIndex : Bool) : QString :=
  if serialUri = [] then []
  else
    let lftFileName := serialUri ++ if autoIndex then [46, 76, 70, 84] else [46, 108, 102, 116]
    if cachePath = [] then [] else cachePath ++ '/' :: lftFileName.flatMap percentByte

/-- A file that `refresh` comes to: what its name leads to, what loading it gives, and what `addPath` finds for
the root path of an index without entries. -/
structure CacheFile where
  fileName : QString
  isLft : ".lft".toList <:+ fileName ∨ ".LFT".toList <:+ fileName
  pathList : List QString
  loaded : Option ℕ
  filled : Bool
  rootPath : QString
  accepted : Bool
  buildPaths : List QString
  watcher : ℕ

namespace CacheFile

variable {α : Type*} (file : CacheFile)

/-- `dir_iterator.fileName().endsWith(".lft")`, the second argument of the call of `addPath`. -/
def autoIndex : Bool := ".lft".toList.isSuffixOf file.fileName

/-- The call of `addPath` in `refresh`. -/
def rebuild : AddPath where
  path := file.rootPath
  accepted := file.accepted
  pathList := file.buildPaths
  first := file.buildPaths.headD []
  watcher := file.watcher
  autoIndex := file.autoIndex

/-- The file as the loop of `refresh` has it. -/
def lftFile (cachePath : QString) : LftFile where
  name := cachePath ++ '/' :: file.fileName
  pathList := file.pathList
  loaded := file.loaded
  filled := file.filled
  rebuild := file.rebuild

/-- The build that the call starts. -/
def job : Job := ⟨file.watcher, file.buildPaths.headD [], file.buildPaths, file.autoIndex, false⟩

/-- The file holds an index without entries, and `addPath` starts a build for it. -/
def Rebuilds (s : Buffers α) : Prop :=
  file.pathList ≠ [] ∧ file.loaded.isSome ∧ ¬ file.filled ∧ file.accepted ∧
    s.fsWatcherMap.lookup file.rootPath = none ∧ file.buildPaths ≠ []

instance (s : Buffers α) : Decidable (file.Rebuilds s) := inferInstanceAs (Decidable (_ ∧ _))

end CacheFile

/-! ## The kind of an index -/

/-- The tests for the kind of an index come out the same for both files. -/
structure SameKind (file file' : QString) : Prop where
  manual : ".lft".toList <:+ file ↔ ".lft".toList <:+ file'
  automatic : ".LFT".toList <:+ file ↔ ".LFT".toList <:+ file'

namespace Buffers

variable {α : Type*}

/-- The file that an index was loaded from: the last one that gave this buffer. -/
def loadedFrom (files : List CacheFile) (buf : ℕ) : Option CacheFile :=
  files.reverse.find? fun file => file.loaded = some buf && file.filled && !file.pathList.isEmpty

/-- The builds that a run of `refresh` starts, with the files they are started for. -/
def builds (cachePath : QString) : Buffers α → List CacheFile → List (CacheFile × Job)
  | _, [] => []
  | s, file :: files =>
    match s.refreshFile (file.lftFile cachePath) with
    | none => []
    | some s' => (if file.Rebuilds s then [(file, file.job)] else []) ++ builds cachePath s' files

/-- What the program may come to from a state. -/
abbrev Later : Buffers α → Buffers α → Prop := Relation.ReflTransGen fun s s' => ∃ e, s.handle e = some s'

/-- After `refresh` has come from `s` to `s'`, every index is of the kind of the file it was made of: those
that were loaded, and those that a build for an empty one puts in its place, whenever that build ends. -/
structure KeepsKinds (cachePath : QString) (s s' : Buffers α) (files : List CacheFile) : Prop where
  loaded : ∀ path buf, (path, buf) ∈ s'.fsBufMap → ∀ file ∈ loadedFrom files buf,
    SameKind (s'.fsBufToFileMap buf) file.fileName
  rebuilt : ∀ p ∈ builds cachePath s files, ∀ s₁, Later s' s₁ → p.2 ∈ s₁.jobs →
    ∀ built allowed serialUri s₂, s₁.finished p.2 built allowed
      (getLFTFileByPath cachePath serialUri p.2.autoIndex) = some s₂ →
    ∀ buf ∈ s₁.taken p.2 built allowed, SameKind (s₂.fsBufToFileMap buf) p.1.fileName

/-! ### Suffixes -/

/-- Of two ends of one length a string has at most one. -/
theorem suffix_append_iff {a b x : QString} (hlen : a.length = b.length) : a <:+ x ++ b ↔ a = b := by
  constructor
  · intro h
    exact (List.suffix_of_suffix_length_le h (List.suffix_append x b) hlen.le).eq_of_length hlen
  · rintro rfl
    exact List.suffix_append x a

theorem SameKind.refl (file : QString) : SameKind file file := ⟨Iff.rfl, Iff.rfl⟩

/-- A file is of the kind that its name says. -/
theorem sameKind_lftFile (cachePath : QString) (file : CacheFile) :
    SameKind (file.lftFile cachePath).name file.fileName := by
  have hkind : ∀ {ext : QString}, ext <:+ file.fileName → ext.length = 4 →
      ∀ {a : QString}, a.length = 4 → (a <:+ cachePath ++ '/' :: file.fileName ↔ a <:+ file.fileName) := by
    rintro ext ⟨stem, hstem⟩ hext a ha
    have hcat : cachePath ++ '/' :: file.fileName = (cachePath ++ '/' :: stem) ++ ext := by rw [← hstem]; simp
    rw [hcat, ← hstem, suffix_append_iff (ha.trans hext.symm), suffix_append_iff (ha.trans hext.symm)]
  rcases file.isLft with h | h
  · exact ⟨hkind h rfl rfl, hkind h rfl rfl⟩
  · exact ⟨hkind h rfl rfl, hkind h rfl rfl⟩

/-- The file of a build is of the other kind than the file it was started for, or there is none. -/
theorem not_sameKind_getLFTFileByPath (cachePath : QString) (serialUri : Bytes) (file : CacheFile) :
    ¬ SameKind (getLFTFileByPath cachePath serialUri file.autoIndex) file.fileName := by
  intro h
  have hempty : ¬ SameKind [] file.fileName := fun h => by
    rcases file.isLft with hext | hext
    · exact absurd (h.manual.mpr hext) (by decide)
    · exact absurd (h.automatic.mpr hext) (by decide)
  rw [getLFTFileByPath] at h
  split at h
  · exact hempty h
  dsimp only at h
  split at h
  · exact hempty h
  -- the extension is not changed by the encoding
  rw [List.flatMap_append, ← List.cons_append, ← List.append_assoc] at h
  cases hauto : file.autoIndex with
  | true =>
    have hext : ".lft".toList <:+ file.fileName := List.isSuffixOf_iff_suffix.mp hauto
    have henc : List.flatMap percentByte [46, 76, 70, 84] = ".LFT".toList := by decide
    rw [hauto, if_pos rfl, henc] at h
    have hlen : ".lft".toList.length = ".LFT".toList.length := rfl
    exact absurd ((suffix_append_iff hlen).mp (h.manual.mpr hext)) (by decide)
  | false =>
    have hext : ".LFT".toList <:+ file.fileName := file.isLft.resolve_left fun hext => by
      rw [CacheFile.autoIndex, List.isSuffixOf_iff_suffix.mpr hext] at hauto
      cases hauto
    have henc : List.flatMap percentByte [46, 108, 102, 116] = ".lft".toList := by decide
    rw [hauto, if_neg (by simp), henc] at h
    have hlen : ".LFT".toList.length = ".lft".toList.length := rfl
    exact absurd ((suffix_append_iff hlen).mp (h.automatic.mpr hext)) (by decide)

/-! ### One file -/

section Turn

variable {s s' : Buffers α} {cachePath : QString} {file : CacheFile}

theorem installPath_builds (s : Buffers α) (buf : ℕ) (path : QString) :
    (s.installPath buf path).jobs = s.jobs ∧ (s.installPath buf path).fsWatcherMap = s.fsWatcherMap := by
  rw [installPath]
  split <;> exact ⟨rfl, rfl⟩

theorem foldl_installPath_builds (s : Buffers α) (buf : ℕ) (paths : List QString) :
    (paths.foldl (fun s path => s.installPath buf path) s).jobs = s.jobs ∧
      (paths.foldl (fun s path => s.installPath buf path) s).fsWatcherMap = s.fsWatcherMap := by
  induction paths generalizing s with
  | nil => exact ⟨rfl, rfl⟩
  | cons path paths ih =>
    obtain ⟨hjobs, hwatchers⟩ := installPath_builds s buf path
    exact ⟨(ih _).1.trans hjobs, (ih _).2.trans hwatchers⟩

/-- What a turn of `refresh` does: it starts a build, installs what it has loaded, or does nothing. -/
theorem refreshFile_cases (h : s.refreshFile (file.lftFile cachePath) = some s') :
    (file.Rebuilds s ∧ s'.jobs = s.jobs ++ [file.job] ∧
      s'.fsWatcherMap = file.buildPaths.foldl (fun m path => (path, file.watcher) :: m.filter (·.1 ≠ path))
        s.fsWatcherMap ∧
      s'.fsBufMap = s.fsBufMap ∧ s'.fsBufToFileMap = s.fsBufToFileMap) ∨
    ¬ file.Rebuilds s ∧ s'.jobs = s.jobs ∧ s'.fsWatcherMap = s.fsWatcherMap ∧
      ((∃ buf, file.pathList ≠ [] ∧ file.loaded = some buf ∧ file.filled ∧
        ∃ s₁ : Buffers α, s₁.fsBufMap = s.fsBufMap ∧ s₁.fsBufToFileMap = s.fsBufToFileMap ∧
          s' = (file.pathList.foldl (fun s path => s.installPath buf path) s₁).setFile buf
            (file.lftFile cachePath).name) ∨
      ¬ (file.pathList ≠ [] ∧ file.loaded.isSome ∧ file.filled) ∧ s'.fsBufMap = s.fsBufMap ∧
        s'.fsBufToFileMap = s.fsBufToFileMap) := by
  rw [refreshFile.eq_def] at h
  have hpaths : (file.lftFile cachePath).pathList = file.pathList := rfl
  have hloaded : (file.lftFile cachePath).loaded = file.loaded := rfl
  rw [hpaths, hloaded] at h
  split at h
  · rename_i hnil
    obtain rfl := Option.some.inj h
    exact .inr ⟨fun hr => hr.1 hnil, rfl, rfl, .inr ⟨fun hr => hr.1 hnil, rfl, rfl⟩⟩
  · rename_i hnone _
    obtain rfl := Option.some.inj h
    have hnot : ¬ file.loaded.isSome := by simp [hnone]
    exact .inr ⟨fun hr => hnot hr.2.1, rfl, rfl, .inr ⟨fun hr => hnot hr.2.1, rfl, rfl⟩⟩
  · rename_i buf hbuf hne
    obtain ⟨s₁, hs₁, rfl⟩ := Option.map_eq_some_iff.mp h
    obtain ⟨-, rfl⟩ := malloc_eq_some hs₁
    split
    · rename_i hfilled
      obtain ⟨hjobs, hwatchers⟩ := foldl_installPath_builds ({ s with live := buf :: s.live } : Buffers α) buf
        file.pathList
      exact .inr ⟨fun hr => hr.2.2.1 hfilled, hjobs, hwatchers,
        .inl ⟨buf, hne, hbuf, hfilled, { s with live := buf :: s.live }, rfl, rfl, rfl⟩⟩
    · rename_i hempty
      have hsome : file.loaded.isSome := by simp [hbuf]
      rw [addPath]
      split
      · rename_i hrefused
        refine .inr ⟨?_, rfl, rfl, .inr ⟨fun hr => hempty hr.2.2, rfl, rfl⟩⟩
        rintro ⟨-, -, -, haccepted, hfree, hpaths⟩
        simp [CacheFile.lftFile, CacheFile.rebuild, haccepted, hfree, hpaths] at hrefused
      · rename_i hstarts
        simp only [CacheFile.lftFile, CacheFile.rebuild, Bool.not_eq_true, Bool.or_eq_false_iff,
          Bool.not_eq_false', Option.isSome_eq_false_iff, Option.isNone_iff_eq_none,
          List.isEmpty_eq_false_iff] at hstarts
        obtain ⟨⟨haccepted, hfree⟩, hpaths⟩ := hstarts
        exact .inl ⟨⟨hne, hsome, hempty, haccepted, hfree, hpaths⟩, rfl, rfl, rfl, rfl⟩

/-- An index that another one leaves installed keeps its file. -/
theorem installPath_keeps {buf b : ℕ} {path p : QString} (h : (p, b) ∈ (s.installPath buf path).fsBufMap)
    (hne : b ≠ buf) : (∃ p', (p', b) ∈ s.fsBufMap) ∧
      (s.installPath buf path).fsBufToFileMap b = s.fsBufToFileMap b := by
  rw [installPath] at h ⊢
  dsimp only at h ⊢
  have hmem := (List.mem_cons.mp h).resolve_left fun heq => hne (Prod.mk.inj heq).2
  replace hmem := (List.mem_filter.mp hmem).1
  split
  · rename_i oldBuf hold
    rw [hold] at hmem
    dsimp only at hmem
    rw [removeBuf_fsBufMap, List.mem_filter, decide_eq_true_eq] at hmem
    exact ⟨⟨p, hmem.1⟩, Function.update_of_ne hmem.2 _ _⟩
  · rename_i hnone
    rw [hnone] at hmem
    exact ⟨⟨p, hmem⟩, rfl⟩

theorem foldl_installPath_keeps {buf b : ℕ} {paths : List QString} {p : QString}
    (h : (p, b) ∈ (paths.foldl (fun s path => s.installPath buf path) s).fsBufMap) (hne : b ≠ buf) :
    (∃ p', (p', b) ∈ s.fsBufMap) ∧
      (paths.foldl (fun s path => s.installPath buf path) s).fsBufToFileMap b = s.fsBufToFileMap b := by
  induction paths generalizing s with
  | nil => exact ⟨⟨p, h⟩, rfl⟩
  | cons path paths ih =>
    obtain ⟨⟨p', hmem⟩, hfile⟩ := ih h
    obtain ⟨hold, hfile'⟩ := installPath_keeps hmem hne
    exact ⟨hold, hfile.trans hfile'⟩

/-- Every index has a file of the kind of the one it was loaded from. -/
def Named (s : Buffers α) (files : List CacheFile) : Prop :=
  ∀ path buf, (path, buf) ∈ s.fsBufMap → ∀ file ∈ loadedFrom files buf,
    SameKind (s.fsBufToFileMap buf) file.fileName

theorem loadedFrom_append_singleton (files : List CacheFile) (file : CacheFile) (buf : ℕ) :
    loadedFrom (files ++ [file]) buf =
      if file.loaded = some buf ∧ file.filled ∧ file.pathList ≠ [] then some file else loadedFrom files buf := by
  rw [loadedFrom, List.reverse_append, List.reverse_singleton, List.singleton_append, List.find?_cons]
  by_cases h : file.loaded = some buf ∧ file.filled ∧ file.pathList ≠ []
  · rw [if_pos h]
    have hne := List.isEmpty_eq_false_iff.mpr h.2.2
    simp [h.1, h.2.1, hne]
  · rw [if_neg h]
    split
    · rename_i hfind
      simp only [Bool.and_eq_true, decide_eq_true_eq, Bool.not_eq_true', List.isEmpty_eq_false_iff] at hfind
      exact absurd ⟨hfind.1.1, hfind.1.2, hfind.2⟩ h
    · rfl

/-- A turn installs an index under the file it was loaded from, and leaves the others theirs. -/
theorem Named.refreshFile {files : List CacheFile} (hs : s.Named files)
    (h : s.refreshFile (file.lftFile cachePath) = some s') : s'.Named (files ++ [file]) := by
  intro path buf hmem f hf
  rw [loadedFrom_append_singleton] at hf
  rcases refreshFile_cases h with ⟨hr, -, -, hmap, hfile⟩ | ⟨-, -, -, hloads | ⟨hnot, hmap, hfile⟩⟩
  · rw [if_neg fun hl => hr.2.2.1 hl.2.1] at hf
    rw [hmap] at hmem
    rw [hfile]
    exact hs path buf hmem f hf
  · obtain ⟨buf', hne, hbuf', hfilled, s₁, hmap, hfile, rfl⟩ := hloads
    by_cases hbuf : buf = buf'
    · subst hbuf
      rw [if_pos ⟨hbuf', hfilled, hne⟩] at hf
      obtain rfl := Option.some.inj hf
      have hname : ∀ t : Buffers α, (t.setFile buf (file.lftFile cachePath).name).fsBufToFileMap buf =
          (file.lftFile cachePath).name := fun t => Function.update_self ..
      rw [hname]
      exact sameKind_lftFile cachePath file
    · rw [if_neg fun hl => hbuf (Option.some.inj (hl.1.symm.trans hbuf'))] at hf
      obtain ⟨⟨p', hold⟩, hkeep⟩ := foldl_installPath_keeps hmem hbuf
      have hother : ∀ t : Buffers α, (t.setFile buf' (file.lftFile cachePath).name).fsBufToFileMap buf =
          t.fsBufToFileMap buf := fun t => Function.update_of_ne hbuf _ _
      rw [hother, hkeep, hfile]
      exact hs p' buf (hmap ▸ hold) f hf
  · rw [if_neg fun hl => hnot ⟨hl.2.2, by rw [hl.1]; rfl, hl.2.1⟩] at hf
    rw [hmap] at hmem
    rw [hfile]
    exact hs path buf hmem f hf

theorem isSome_lookup_iff {m : List (QString × ℕ)} {path : QString} :
    (m.lookup path).isSome ↔ path ∈ m.map Prod.fst := by
  rw [← not_iff_not, Bool.not_eq_true, Option.isSome_eq_false_iff, Option.isNone_iff_eq_none,
    List.lookup_eq_none_iff]
  simp only [bne_iff_ne, ne_eq, Prod.forall, List.mem_map, Prod.exists, exists_and_right, exists_eq_right,
    not_exists]
  exact ⟨fun h x hx => h path x hx rfl, fun h a x hx heq => h x (heq ▸ hx)⟩

/-- The loop of `addPath` leaves the paths it has put into the map, and those that were there. -/
theorem mem_foldl_watcher {m : List (QString × ℕ)} {paths : List QString} {watcher : ℕ} {path : QString}
    (h : path ∈ m.map Prod.fst ∨ path ∈ paths) :
    path ∈ (paths.foldl (fun m path => (path, watcher) :: m.filter (·.1 ≠ path)) m).map Prod.fst := by
  induction paths generalizing m with
  | nil => exact h.resolve_right List.not_mem_nil
  | cons p paths ih =>
    refine ih ?_
    by_cases hp : path = p
    · exact .inl (by simp [hp])
    · refine h.imp (fun hmem => ?_) fun hmem => (List.mem_cons.mp hmem).resolve_left hp
      obtain ⟨e, he, rfl⟩ := List.mem_map.mp hmem
      exact List.mem_cons_of_mem _ (List.mem_map_of_mem (List.mem_filter.mpr ⟨he, decide_eq_true hp⟩))

/-- A path stays in the map of the builds. -/
theorem refreshFile_watchers (h : s.refreshFile (file.lftFile cachePath) = some s') {path : QString}
    (hpath : (s.fsWatcherMap.lookup path).isSome ∨ file.Rebuilds s ∧ path ∈ file.buildPaths) :
    (s'.fsWatcherMap.lookup path).isSome := by
  rcases refreshFile_cases h with ⟨-, -, hwatchers, -⟩ | ⟨hr, -, hwatchers, -⟩
  · rw [hwatchers, isSome_lookup_iff]
    exact mem_foldl_watcher (hpath.imp isSome_lookup_iff.mp And.right)
  · rw [hwatchers]
    exact hpath.resolve_right fun hr' => hr hr'.1

end Turn

/-! ### All files -/

section Run

variable {s s' : Buffers α} {cachePath : QString} {files : List CacheFile}

theorem refresh_cons {file : CacheFile}
    (h : s.refresh ((file :: files).map (·.lftFile cachePath)) = some s') :
    ∃ s₁, s.refreshFile (file.lftFile cachePath) = some s₁ ∧
      s₁.refresh (files.map (·.lftFile cachePath)) = some s' := by
  rw [List.map_cons, refresh, List.foldlM_cons] at h
  exact Option.bind_eq_some_iff.mp h

theorem Named.refresh {done : List CacheFile} (hs : s.Named done)
    (h : s.refresh (files.map (·.lftFile cachePath)) = some s') : s'.Named (done ++ files) := by
  induction files generalizing s done with
  | nil =>
    obtain rfl := Option.some.inj h
    rwa [List.append_nil]
  | cons file files ih =>
    obtain ⟨s₁, hs₁, h⟩ := refresh_cons h
    rw [← List.singleton_append, ← List.append_assoc]
    exact ih (hs.refreshFile hs₁) h

theorem refresh_watchers (h : s.refresh (files.map (·.lftFile cachePath)) = some s') {path : QString}
    (hpath : (s.fsWatcherMap.lookup path).isSome) : (s'.fsWatcherMap.lookup path).isSome := by
  induction files generalizing s with
  | nil =>
    obtain rfl := Option.some.inj h
    exact hpath
  | cons file files ih =>
    obtain ⟨s₁, hs₁, h⟩ := refresh_cons h
    exact ih h (refreshFile_watchers hs₁ (.inl hpath))

/-- The jobs that `refresh` adds are the builds. -/
theorem refresh_jobs (h : s.refresh (files.map (·.lftFile cachePath)) = some s') :
    s'.jobs = s.jobs ++ (builds cachePath s files).map Prod.snd := by
  induction files generalizing s with
  | nil =>
    obtain rfl := Option.some.inj h
    simp [builds]
  | cons file files ih =>
    obtain ⟨s₁, hs₁, h⟩ := refresh_cons h
    rw [ih h, builds, hs₁]
    rcases refreshFile_cases hs₁ with ⟨hr, hjobs, -⟩ | ⟨hr, hjobs, -⟩
    · simp [hr, hjobs]
    · simp [hr, hjobs]

/-- A build is the file's own, and under way when `refresh` is done. -/
theorem mem_builds (h : s.refresh (files.map (·.lftFile cachePath)) = some s') {p : CacheFile × Job}
    (hp : p ∈ builds cachePath s files) : p.2 = p.1.job ∧ (s'.fsWatcherMap.lookup p.2.path).isSome := by
  induction files generalizing s with
  | nil => cases hp
  | cons file files ih =>
    obtain ⟨s₁, hs₁, h⟩ := refresh_cons h
    rw [builds, hs₁] at hp
    rcases List.mem_append.mp hp with hp | hp
    · split at hp
      · rename_i hr
        obtain rfl := List.mem_singleton.mp hp
        refine ⟨rfl, refresh_watchers h (refreshFile_watchers hs₁ (.inr ⟨hr, ?_⟩))⟩
        obtain ⟨path, paths, hpaths⟩ := List.exists_cons_of_ne_nil hr.2.2.2.2.2
        simp [CacheFile.job, hpaths]
      · cases hp
    · exact ih h hp

/-- There are no builds if and only if no file gives one in the state before. -/
theorem builds_eq_nil_iff (h : s.refresh (files.map (·.lftFile cachePath)) = some s') :
    builds cachePath s files = [] ↔ ∀ file ∈ files, ¬ file.Rebuilds s := by
  induction files generalizing s with
  | nil => simp [builds]
  | cons file files ih =>
    obtain ⟨s₁, hs₁, h⟩ := refresh_cons h
    rw [builds, hs₁, List.forall_mem_cons]
    by_cases hr : file.Rebuilds s
    · simp [hr]
    · -- the map of the builds is the same at the next file
      have hwatchers : s₁.fsWatcherMap = s.fsWatcherMap := by
        rcases refreshFile_cases hs₁ with ⟨hr', -⟩ | ⟨-, -, hwatchers, -⟩
        · exact absurd hr' hr
        · exact hwatchers
      have hsame : ∀ f : CacheFile, f.Rebuilds s₁ ↔ f.Rebuilds s := fun f => by
        rw [CacheFile.Rebuilds, CacheFile.Rebuilds, hwatchers]
      simp only [hr, if_false, List.nil_append, ih h, hsame, not_false_eq_true, true_and]

/-- The end of a build that is taken puts the index under the file it is given. -/
theorem finished_file {job : Job} {built : Option ℕ} {allowed : Bool} {lftFile : QString} {buf : ℕ}
    (h : s.finished job built allowed lftFile = some s') (htaken : s.taken job built allowed = some buf) :
    s'.fsBufToFileMap buf = lftFile := by
  obtain ⟨s₁, hs₁, rfl⟩ := Option.map_eq_some_iff.mp h
  dsimp only
  rw [taken_of_built hs₁, htaken]
  exact Function.update_self ..

/-- A job whose path is in the map can end, with an index that is taken. -/
theorem exists_finished {job : Job} (hpath : (s.fsWatcherMap.lookup job.path).isSome) (hjob : job.canceled = false)
    (lftFile : QString) : ∃ buf s', s.finished job (some buf) true lftFile = some s' ∧
      s.taken job (some buf) true = some buf := by
  obtain ⟨buf, hbuf⟩ := Infinite.exists_notMem_finset s.live.toFinset
  rw [List.mem_toFinset] at hbuf
  refine ⟨buf, _, Option.map_eq_some_iff.mpr ⟨_, if_neg hbuf, rfl⟩, ?_⟩
  simp [taken, Job.result, hjob, hpath, allowableBuf]

/-- A serial URI as `pathToSerialUri` writes it, of `/d` on the device with the id `A`: `serial:A/d` -/
def sampleUri : Bytes := [115, 101, 114, 105, 97, 108, 58, 65, 47, 100]

/-- Every build that is started may end with an index of the other kind. -/
theorem builds_eq_nil_of_keepsKinds (h : s.refresh (files.map (·.lftFile cachePath)) = some s')
    (hkeeps : KeepsKinds cachePath s s' files) : builds cachePath s files = [] := by
  by_contra hne
  obtain ⟨p, hp⟩ := List.exists_mem_of_ne_nil _ hne
  obtain ⟨hjob, hpath⟩ := mem_builds h hp
  have hmem : p.2 ∈ s'.jobs := by
    rw [refresh_jobs h]
    exact List.mem_append_right _ (List.mem_map_of_mem hp)
  obtain ⟨buf, s₂, hfinished, htaken⟩ := exists_finished hpath (by rw [hjob]; rfl)
    (getLFTFileByPath cachePath sampleUri p.2.autoIndex)
  have hkind := hkeeps.rebuilt p hp s' .refl hmem (some buf) true sampleUri s₂ hfinished buf htaken
  rw [finished_file hfinished htaken, hjob] at hkind
  exact not_sameKind_getLFTFileByPath cachePath sampleUri p.1 hkind

/-- `refresh` keeps the kind of every index just if it starts no build: there is no file with an index
without entries for which `addPath` goes on. -/
theorem refresh_keepsKinds_iff (h : s.refresh (files.map (·.lftFile cachePath)) = some s') :
    KeepsKinds cachePath s s' files ↔ ∀ file ∈ files, ¬ file.Rebuilds s := by
  constructor
  · intro hkeeps
    exact (builds_eq_nil_iff h).mp (builds_eq_nil_of_keepsKinds h hkeeps)
  · intro hno
    have hnil := (builds_eq_nil_iff h).mpr hno
    have hnamed : s'.Named ([] ++ files) :=
      Named.refresh (fun _ _ _ f hf => absurd hf (by simp [loadedFrom])) h
    exact ⟨hnamed, fun p hp => absurd (hnil ▸ hp) List.not_mem_nil⟩

/-- A manual index of `/d`, with entries or without, under the name that `getLFTFileByPath` gives a file for
`sampleUri`. -/
def sampleFile (filled : Bool) : CacheFile where
  fileName := "serial:A%2Fd.lft".toList
  isLft := .inl ⟨"serial:A%2Fd".toList, rfl⟩
  pathList := ["/d".toList]
  loaded := some 1
  filled := filled
  rootPath := "/d/".toList
  accepted := true
  buildPaths := ["/d".toList]
  watcher := 7

/-- The manager at its start, with nothing on the disk. -/
def sampleStart : Buffers ℕ := initial (fun _ => 0) fun _ => none

theorem refresh_keepsKinds_iff_sample :
    ∃ s', sampleStart.refresh ([sampleFile true].map (·.lftFile "/c".toList)) = some s' ∧
      s'.fsBufMap.lookup "/d".toList = some 1 ∧ KeepsKinds "/c".toList sampleStart s' [sampleFile true] := by
  obtain ⟨s', hs'⟩ : ∃ s', sampleStart.refresh ([sampleFile true].map (·.lftFile "/c".toList)) = some s' :=
    ⟨_, rfl⟩
  refine ⟨s', hs', ?_, (refresh_keepsKinds_iff hs').mpr (by decide)⟩
  obtain rfl := Option.some.inj hs'
  rfl

/-- Without entries it is built again as an automatic one, which may not be removed. -/
theorem refresh_not_keepsKinds :
    ∃ s', sampleStart.refresh ([sampleFile false].map (·.lftFile "/c".toList)) = some s' ∧
      (∃ s₂, s'.finished (sampleFile false).job (some 2) true
          (getLFTFileByPath "/c".toList sampleUri (sampleFile false).job.autoIndex) = some s₂ ∧
        s₂.fsBufMap.lookup "/d".toList = some 2 ∧ s₂.fsBufToFileMap 2 = "/c/serial:A%2Fd.LFT".toList) ∧
      ¬ KeepsKinds "/c".toList sampleStart s' [sampleFile false] := by
  obtain ⟨s', hs'⟩ : ∃ s', sampleStart.refresh ([sampleFile false].map (·.lftFile "/c".toList)) = some s' :=
    ⟨_, rfl⟩
  obtain ⟨s₂, hs₂⟩ : ∃ s₂, s'.finished (sampleFile false).job (some 2) true
      (getLFTFileByPath "/c".toList sampleUri (sampleFile false).job.autoIndex) = some s₂ := by
    obtain rfl := Option.some.inj hs'
    exact ⟨_, rfl⟩
  refine ⟨s', hs', ⟨s₂, hs₂, ?_, ?_⟩, fun hkeeps => ?_⟩
  · obtain rfl := Option.some.inj hs'
    obtain rfl := Option.some.inj hs₂
    rfl
  · obtain rfl := Option.some.inj hs'
    obtain rfl := Option.some.inj hs₂
    rfl
  · have hno := (builds_eq_nil_iff hs').mp (builds_eq_nil_of_keepsKinds hs' hkeeps)
    exact hno (sampleFile false) (List.mem_singleton_self _) (by decide)

end Run

end Buffers

end DeepinAnything.Server
