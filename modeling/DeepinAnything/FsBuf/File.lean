import DeepinAnything.FsBuf.PathName
import DeepinAnything.FsBuf.Search
import DeepinAnything.FsBuf.Run

/-!
# Saving and loading

`save_fs_buf` writes a magic number and the size into the eight reserved bytes of a buffer and then
the buffer up to its tail. `load_fs_buf` reads the three parts back and takes a file for too short
that has less than five bytes behind the first eight; the file of an empty tree below a short root
path is such a file. A file whose end is missing is refused at the part that is not complete.
-/

namespace DeepinAnything

open ByteMem OrderedForest OrderedForest.Forest

def ioBlkSize : ℕ := 2 ^ 14

/-- `fsbuf_magic` with its terminator. -/
def fsbufMagic : Bytes := [76, 70, 84, 0]

/-! ## `utils.c` -/

/-- The loop of `write_file`, which stops at the first block that is not taken as a whole. `write`
says how many of the bytes asked for at a position of the file are written. The result is whether
all was written, and the file. -/
def writeFileLoop (write : ℕ → ℕ → ℕ) (m : Mem) : ℕ → ℕ → ℕ → Bytes → Bool × Bytes
  | 0, _, _, file => (true, file)
  | fuel + 1, left, p, file =>
    if left > 0 then
      let toWrite := if left > ioBlkSize then ioBlkSize else left
      let written := min (write file.length toWrite) toWrite
      if written ≠ toWrite then (false, file ++ m.load p written)
      else writeFileLoop write m fuel (left - toWrite) (p + toWrite) (file ++ m.load p written)
    else (true, file)

/-- `write_file` into an empty file. -/
def writeFile (write : ℕ → ℕ → ℕ) (m : Mem) (size : ℕ) : Bool × Bytes :=
  writeFileLoop write m size size 0 []

/-- The loop of `read_file`, with `file` what is left of the file; `none` is a block that the file
does not have as a whole. -/
def readFileLoop : ℕ → ℕ → ℕ → Bytes → Mem → Option Mem
  | 0, _, _, _, m => some m
  | fuel + 1, left, p, file, m =>
    if left > 0 then
      let toRead := if left > ioBlkSize then ioBlkSize else left
      if file.length < toRead then none
      else readFileLoop fuel (left - toRead) (p + toRead) (file.drop toRead)
        (m.store p (file.take toRead))
    else some m

/-- `read_file` of `size` bytes to the offset `head`. -/
def readFile (file : Bytes) (head size : ℕ) (m : Mem) : Option Mem := readFileLoop size size head file m

theorem writeFileLoop_spec (write : ℕ → ℕ → ℕ) (m : Mem) {fuel left : ℕ} (p : ℕ) (file : Bytes)
    (hfuel : left ≤ fuel) : ∃ n ≤ left,
      (writeFileLoop write m fuel left p file).2 = file ++ m.load p n ∧
      ((writeFileLoop write m fuel left p file).1 = true → n = left) ∧
      ((∀ pos n, n ≤ write pos n) → (writeFileLoop write m fuel left p file).1 = true) := by
  induction fuel generalizing left p file with
  | zero => exact ⟨0, Nat.zero_le _, by simp [writeFileLoop, Mem.load], fun _ => by omega, fun _ => rfl⟩
  | succ fuel ih =>
    rw [writeFileLoop]
    by_cases hleft : left > 0
    · simp only [if_pos hleft]
      generalize hto : (if left > ioBlkSize then ioBlkSize else left) = toWrite
      have hle : 0 < toWrite ∧ toWrite ≤ left := by
        have hblk : ioBlkSize = 16384 := rfl
        subst hto
        split <;> omega
      generalize hn : min (write file.length toWrite) toWrite = written
      by_cases hall : written = toWrite
      · rw [if_neg (not_not.mpr hall), hall]
        obtain ⟨n, hn, hfile, hok, htrue⟩ := @ih (left - toWrite) (p + toWrite)
          (file ++ m.load p toWrite) (by omega)
        refine ⟨toWrite + n, by omega, ?_, fun h => ?_, htrue⟩
        · rw [hfile, Mem.load_add, List.append_assoc]
        · have := hok h
          omega
      · rw [if_pos hall]
        refine ⟨written, by omega, rfl, by simp, fun hwrite => absurd ?_ hall⟩
        have := hwrite file.length toWrite
        omega
    · rw [if_neg hleft]
      exact ⟨0, Nat.zero_le _, by simp [Mem.load], fun _ => by omega, fun _ => rfl⟩

theorem readFileLoop_eq {fuel left : ℕ} (p : ℕ) (file : Bytes) (m : Mem) (hfuel : left ≤ fuel) :
    readFileLoop fuel left p file m =
      if left ≤ file.length then some (m.store p (file.take left)) else none := by
  induction fuel generalizing left p file m with
  | zero =>
    obtain rfl : left = 0 := by omega
    simp [readFileLoop, Mem.store_nil]
  | succ fuel ih =>
    rw [readFileLoop]
    by_cases hleft : left > 0
    · simp only [if_pos hleft]
      generalize hto : (if left > ioBlkSize then ioBlkSize else left) = toRead
      have hle : 0 < toRead ∧ toRead ≤ left := by
        have hblk : ioBlkSize = 16384 := rfl
        subst hto
        split <;> omega
      by_cases hshort : file.length < toRead
      · rw [if_pos hshort, if_neg (by omega)]
      · rw [if_neg hshort, ih _ _ _ (by omega), List.length_drop]
        by_cases hall : left ≤ file.length
        · have hlen : (file.take toRead).length = toRead := by rw [List.length_take]; omega
          have hjoin := Mem.store_append (m := m) p (file.take toRead)
            ((file.drop toRead).take (left - toRead))
          rw [hlen, ← List.take_add, show toRead + (left - toRead) = left by omega] at hjoin
          rw [if_pos (by omega), if_pos hall, hjoin]
        · rw [if_neg (by omega), if_neg hall]
    · obtain rfl : left = 0 := by omega
      simp [Mem.store_nil]

/-! ## `save_fs_buf` and `load_fs_buf` -/

namespace FsBuf

/-- The magic number and the size in the reserved bytes. -/
def withHeader (b : FsBuf) : FsBuf :=
  { b with head := (b.head.store 0 fsbufMagic).store 4 (le32 b.tail) }

/-- `save_fs_buf`: what it returns, the buffer and the file. `openOk` says whether the file can be
opened, `old` is what was there before. -/
def saveFsBuf (b : FsBuf) (openOk : Bool) (write : ℕ → ℕ → ℕ) (old : Option Bytes) :
    ℕ × FsBuf × Option Bytes :=
  if !openOk then (1, b, old)
  else
    let b := b.withHeader
    match writeFile write b.head b.tail with
    | (false, file) => (2, b, some file)
    | (true, file) => (0, b, some file)

end FsBuf

variable {b : FsBuf} {root : Bytes} {t : Tree}

/-- What `load_fs_buf` gets from the system: the `fs_buf` and its lock, and for each size the block
for the head. -/
structure LoadEnv where
  malloc : Bool
  lock : Bool
  block : ℕ → Option Mem

/-- The value of a `uint32_t` with the given bytes. -/
def wordOf (bs : Bytes) : ℕ := (Mem.store ⟨fun _ => 0⟩ 0 bs).load32 0

/-- `load_fs_buf` of a file that can be opened: the buffer, or the code it returns. -/
def loadFsBuf (env : LoadEnv) (file : Option Bytes) : Except ℕ FsBuf :=
  match file with
  | none => .error 1
  | some file =>
    if file.length < 4 ∨ file.take 4 ≠ fsbufMagic then .error 2
    else
      let file := file.drop 4
      let size := wordOf (file.take 4)
      if file.length < 4 ∨ size < 4 * 2 + 5 then .error 3
      else if !env.malloc then .error 4
      else if !env.lock then .error 5
      else
        match env.block size with
        | none => .error 6
        | some fresh =>
          match readFile (file.drop 4) (4 * 2) (size - 4 * 2) fresh with
          | none => .error 7
          | some head =>
            let b : FsBuf := { head := head, capacity := size, tail := size, firstNameOff := 0 }
            .ok { b with firstNameOff := dataStart + b.strlen dataStart + 1 }

/-! ## The file -/

namespace FsBuf

theorem withHeader_get {i : ℕ} (hi : dataStart ≤ i) : b.withHeader.head.get i = b.head.get i := by
  have hstart : dataStart = 8 := rfl
  rw [withHeader, Mem.store_get_of_not_mem (by rw [length_le32]; omega),
    Mem.store_get_of_not_mem (by simp [fsbufMagic]; omega)]

/-- The file of a buffer: the header, and the bytes from the root path to the tail. -/
def fileOf (b : FsBuf) : Bytes :=
  fsbufMagic ++ (le32 b.tail ++ b.head.load dataStart (b.tail - dataStart))

theorem load_withHeader (h : dataStart ≤ b.tail) : b.withHeader.head.load 0 b.tail = b.fileOf := by
  have hmagic : b.withHeader.head.Holds 0 fsbufMagic := by
    refine Mem.Holds.congr (Mem.holds_store (m := b.head) 0 fsbufMagic) fun i hi => ?_
    rw [withHeader, Mem.store_get_of_not_mem (by simp [fsbufMagic] at hi; omega)]
  have hsize : b.withHeader.head.Holds 4 (le32 b.tail) := Mem.holds_store _ _
  have hbody : b.withHeader.head.load dataStart (b.tail - dataStart) =
      b.head.load dataStart (b.tail - dataStart) := Mem.load_congr fun i hi _ => withHeader_get hi
  have hsplit : b.tail = 4 + (4 + (b.tail - dataStart)) := by simp only [dataStart] at h ⊢; omega
  conv_lhs => rw [hsplit]
  rw [Mem.load_add, Mem.load_add, fileOf, ← hbody, show (0 : ℕ) + 4 = 4 from rfl,
    show (4 : ℕ) + 4 = dataStart from rfl]
  exact congrArg₂ (· ++ ·) hmagic.load_eq (congrArg₂ (· ++ ·) hsize.load_eq rfl)

/-- A save that returns 0 has written the whole file. -/
theorem saveFsBuf_ok (h : dataStart ≤ b.tail) {openOk : Bool} {write : ℕ → ℕ → ℕ}
    {old file : Option Bytes} {b' : FsBuf} (heq : b.saveFsBuf openOk write old = (0, b', file)) :
    b' = b.withHeader ∧ file = some b.fileOf := by
  rw [saveFsBuf] at heq
  split at heq
  · simp at heq
  obtain ⟨n, -, hfile, hok, -⟩ := writeFileLoop_spec write b.withHeader.head 0 [] (le_refl b.tail)
  have hwrite : writeFile write b.withHeader.head b.withHeader.tail =
      writeFileLoop write b.withHeader.head b.tail b.tail 0 [] := rfl
  simp only [hwrite] at heq
  split at heq
  · simp at heq
  · rename_i file' hres
    rw [hres] at hfile hok
    obtain rfl : n = b.tail := hok rfl
    simp only [Prod.mk.injEq, true_and] at heq
    refine ⟨heq.1.symm, ?_⟩
    rw [← heq.2, ← load_withHeader h]
    exact congrArg some (hfile.trans (List.nil_append _))

end FsBuf

theorem wordOf_le32 {n : ℕ} (h : n < 2 ^ 32) : wordOf (le32 n) = n :=
  Mem.load32_of_holds (Mem.holds_store 0 (le32 n)) h

variable {env : LoadEnv} {size : ℕ} {body : Bytes}

/-- What `load_fs_buf` does with a file whose header is complete. -/
theorem loadFsBuf_header (hsize : size < 2 ^ 32) :
    loadFsBuf env (some (fsbufMagic ++ (le32 size ++ body))) =
      if size < 13 then .error 3
      else if !env.malloc then .error 4
      else if !env.lock then .error 5
      else
        match env.block size with
        | none => .error 6
        | some fresh =>
          if size - 8 ≤ body.length then
            let b : FsBuf := ⟨fresh.store 8 (body.take (size - 8)), size, size, 0⟩
            .ok { b with firstNameOff := dataStart + b.strlen dataStart + 1 }
          else .error 7 := by
  have hmagic : (fsbufMagic ++ (le32 size ++ body)).take 4 = fsbufMagic := rfl
  have hrest : (fsbufMagic ++ (le32 size ++ body)).drop 4 = le32 size ++ body := rfl
  have hword : (le32 size ++ body).take 4 = le32 size := rfl
  have hbody : (le32 size ++ body).drop 4 = body := rfl
  have hlen : ¬ (fsbufMagic ++ (le32 size ++ body)).length < 4 := by simp [fsbufMagic]
  have hlen' : ¬ (le32 size ++ body).length < 4 := by simp
  simp only [loadFsBuf, hmagic, hrest, hword, hbody, hlen, hlen', wordOf_le32 hsize, readFile,
    readFileLoop_eq _ _ _ (le_refl _), ne_eq, not_true_eq_false, or_self, false_or, if_false]
  split
  · rfl
  split
  · rfl
  split
  · rfl
  cases env.block size with
  | none => rfl
  | some fresh =>
    simp only
    by_cases hle : size - 8 ≤ body.length
    · rw [if_pos hle]
      simp only [show size - 4 * 2 = size - 8 from rfl, if_pos hle]
    · rw [if_neg hle]
      simp only [if_neg hle]

/-- A buffer with the same bytes from the root path to the tail is the image of the same tree. -/
theorem Represents.copy {b' : FsBuf} (h : Represents b root t)
    (hfirst : b'.firstNameOff = b.firstNameOff) (htail : b'.tail = b.tail) (hsized : b'.Sized)
    (hsame : ∀ i, dataStart ≤ i → i < b.tail → b'.head.get i = b.head.get i) :
    Represents b' root t := by
  have hfirst' := h.first_eq
  have htail' := h.tail_eq
  refine ⟨h.root_ok, h.root_at.congr fun i hi => hsame _ (by omega) ?_, hfirst.trans h.first_eq, ?_,
    hsized, ?_, h.valid⟩
  · simp only [List.length_append, List.length_singleton] at hi
    omega
  · rw [htail, hfirst, htail']
  · rw [hfirst]
    exact h.image.congr fun i hi => hsame _ (by omega) (by omega)

theorem Represents.withHeader (h : Represents b root t) : Represents b.withHeader root t :=
  h.copy rfl rfl ⟨h.sized.tail_le, h.sized.capacity_le⟩ fun _ hi _ => FsBuf.withHeader_get hi

namespace FsBuf

/-- The names that stand in a part of a buffer stand in a copy of that part. -/
theorem Names.copy {b' : FsBuf} {off stop : ℕ} {xs : List (ℕ × Bytes)} (h : b.Names off xs stop)
    (hcap : stop ≤ b.capacity) (hcap' : stop ≤ b'.capacity)
    (hsame : ∀ i, off ≤ i → i < stop → b'.head.get i = b.head.get i) : b'.Names off xs stop := by
  induction xs generalizing off with
  | nil => exact h
  | cons x xs ih =>
    obtain ⟨hx, hstr, hzero, hlt, hxs⟩ := h
    have hle := hxs.le
    have hnext : off + x.2.length + 1 < b.nextName off := by
      simp only [nextName, strlen, hstr]
      split <;> omega
    have hholds : b.head.Holds off (x.2 ++ [0]) := by
      rw [← hstr]
      exact Mem.holds_cstr (by rw [← strAt, hstr]; omega)
    have hstr' : b'.strAt off = x.2 := by
      refine @strAt_of_holds _ _ _ [] (Mem.Holds.congr hholds fun i hi => hsame _ (by omega) ?_)
        (hstr ▸ Mem.zero_not_mem_cstr _ _) (by omega)
      simp only [List.length_append, List.length_singleton] at hi
      omega
    have hnext' : b'.nextName off = b.nextName off := by
      simp only [nextName, strlen, hstr, hstr']
      rw [hsame _ (by omega) (by omega)]
    refine ⟨hx, hstr', by rw [hsame _ le_rfl (by omega)]; exact hzero, hnext'.symm ▸ hlt, ?_⟩
    rw [hnext']
    exact ih hxs fun i hi hlt' => hsame i (by omega) hlt'

end FsBuf

theorem WrittenBelow.unique {m m₁ m₂ : Mem} {dst₁ dst₂ limit : ℕ} {s : Bytes}
    (h₁ : WrittenBelow m m₁ dst₁ limit s) (h₂ : WrittenBelow m m₂ dst₂ limit s) :
    m₁ = m₂ ∧ dst₁ = dst₂ := by
  have hlen₁ := h₁.length_eq
  have hlen₂ := h₂.length_eq
  obtain rfl : dst₁ = dst₂ := by omega
  refine ⟨Mem.ext (funext fun i => ?_), rfl⟩
  by_cases hi : i < dst₁ ∨ limit ≤ i
  · rw [h₁.frame i hi, h₂.frame i hi]
  · obtain ⟨j, rfl⟩ : ∃ j, i = dst₁ + j := ⟨i - dst₁, by omega⟩
    rw [h₁.holds.get (by omega), h₂.holds.get (by omega)]

theorem Represents.dataStart_le (h : Represents b root t) : dataStart ≤ b.tail := by
  have hfirst := h.first_eq
  have htail := h.tail_eq
  omega

/-- The block `fresh` with the image of `b` read into it behind the first eight bytes, which stay as
they are. -/
def FsBuf.loadedInto (b : FsBuf) (fresh : Mem) : FsBuf :=
  ⟨fresh.store 8 (b.head.load dataStart (b.tail - dataStart)), b.tail, b.tail, b.firstNameOff⟩

theorem Represents.sized_loadedInto (h : Represents b root t) (fresh : Mem) : (b.loadedInto fresh).Sized :=
  ⟨le_rfl, h.sized.tail_le_max⟩

theorem FsBuf.loadedInto_get (fresh : Mem) {i : ℕ} (hi : dataStart ≤ i) (hlt : i < b.tail) :
    (b.loadedInto fresh).head.get i = b.head.get i := by
  obtain ⟨j, rfl⟩ : ∃ j, i = dataStart + j := ⟨i - dataStart, by omega⟩
  rw [loadedInto, show (8 : ℕ) = dataStart from rfl, Mem.store_get_of_mem (by rw [Mem.length_load]; omega)]
  exact ((Mem.holds_load dataStart (b.tail - dataStart)).get (by rw [Mem.length_load]; omega)).symm

/-- What is loaded is an image of the tree. -/
theorem Represents.loadedInto (h : Represents b root t) (fresh : Mem) :
    Represents (b.loadedInto fresh) root t :=
  h.copy rfl rfl (h.sized_loadedInto fresh) fun _ => FsBuf.loadedInto_get fresh

/-- What `load_fs_buf` does with the file of a buffer. -/
theorem Represents.load_fileOf (h : Represents b root t) (env : LoadEnv) :
    (b.tail < 13 ∧ loadFsBuf env (some b.fileOf) = .error 3) ∨
    (13 ≤ b.tail ∧ (env.malloc = false ∨ env.lock = false ∨ env.block b.tail = none) ∧
      ∃ code, loadFsBuf env (some b.fileOf) = .error code) ∨
    (13 ≤ b.tail ∧ ∃ fresh, env.block b.tail = some fresh ∧
      loadFsBuf env (some b.fileOf) = .ok (b.loadedInto fresh)) := by
  have hmax := h.sized.tail_le_max
  have hdata := h.dataStart_le
  rw [FsBuf.fileOf, loadFsBuf_header (by omega)]
  by_cases hsmall : b.tail < 13
  · exact .inl ⟨hsmall, if_pos hsmall⟩
  rw [if_neg hsmall]
  right
  by_cases hmalloc : env.malloc = false
  · exact .inl ⟨by omega, .inl hmalloc, 4, by simp [hmalloc]⟩
  by_cases hlock : env.lock = false
  · exact .inl ⟨by omega, .inr (.inl hlock), 5, by simp [hmalloc, hlock]⟩
  rw [Bool.not_eq_false] at hmalloc hlock
  simp only [hmalloc, hlock, Bool.not_true, Bool.false_eq_true, if_false]
  cases hblock : env.block b.tail with
  | none => exact .inl ⟨by omega, .inr (.inr rfl), 6, rfl⟩
  | some fresh =>
    refine .inr ⟨by omega, fresh, rfl, ?_⟩
    have hlen : (b.head.load dataStart (b.tail - dataStart)).length = b.tail - 8 :=
      Mem.length_load _ _
    have hroot : (b.loadedInto fresh).strAt dataStart = root := (h.loadedInto fresh).getRootPath_eq
    have hfirst : dataStart + root.length + 1 = b.firstNameOff := h.first_eq.symm
    simp only
    rw [if_pos (by rw [hlen]), ← hlen, List.take_length, FsBuf.loadedInto, ← hfirst, ← hroot]
    rfl

/-! ## Runs -/

/-- Runs in which the buffer may also be saved, and replaced by what is loaded from its file. -/
inductive Stored (okBuild : WalkEnv → ℕ → FsBuf → Prop) (okCall : FsBuf → Call → Prop) :
    FsBuf → Prop
  | run {b : FsBuf} (h : Reachable okBuild okCall b) : Stored okBuild okCall b
  | call {b b' : FsBuf} {c : Call} {ret : Ret} (hb : Stored okBuild okCall b) (hok : okCall b c)
      (hcall : b.call c = some (ret, b')) : Stored okBuild okCall b'
  | save {b b' : FsBuf} {openOk : Bool} {write : ℕ → ℕ → ℕ} {old file : Option Bytes} {code : ℕ}
      (hb : Stored okBuild okCall b) (hsave : b.saveFsBuf openOk write old = (code, b', file)) :
      Stored okBuild okCall b'
  | load {b b' b'' : FsBuf} {openOk : Bool} {write : ℕ → ℕ → ℕ} {old file : Option Bytes}
      {env : LoadEnv} (hb : Stored okBuild okCall b)
      (hsave : b.saveFsBuf openOk write old = (0, b', file)) (hload : loadFsBuf env file = .ok b'') :
      Stored okBuild okCall b''

/-- A save leaves the buffer as it is, or with the header in it. -/
theorem FsBuf.saveFsBuf_buffer (b : FsBuf) (openOk : Bool) (write : ℕ → ℕ → ℕ) (old : Option Bytes) :
    (b.saveFsBuf openOk write old).2.1 = b ∨ (b.saveFsBuf openOk write old).2.1 = b.withHeader := by
  rw [saveFsBuf]
  cases openOk with
  | false => exact .inl rfl
  | true =>
    right
    simp only [Bool.not_true, Bool.false_eq_true, if_false]
    split <;> rfl

theorem Stored.represents (h : Stored BuildSafe CallSafe b) : ∃ root t, Represents b root t := by
  induction h with
  | run h => exact h.represents
  | call _ hok hcall ih =>
    obtain ⟨root, t, hrep⟩ := ih
    obtain ⟨ret, b', t', heq, hrep', -⟩ := hrep.call hok
    rw [hcall, Option.some.injEq, Prod.mk.injEq] at heq
    obtain ⟨-, rfl⟩ := heq
    exact ⟨root, t', hrep'⟩
  | save _ hsave ih =>
    obtain ⟨root, t, hrep⟩ := ih
    rename_i b b' openOk write old file code _
    have hcase := b.saveFsBuf_buffer openOk write old
    rw [hsave] at hcase
    rcases hcase with rfl | rfl
    · exact ⟨root, t, hrep⟩
    · exact ⟨root, t, hrep.withHeader⟩
  | load _ hsave hload ih =>
    obtain ⟨root, t, hrep⟩ := ih
    obtain ⟨-, rfl⟩ := FsBuf.saveFsBuf_ok hrep.dataStart_le hsave
    rcases hrep.load_fileOf _ with ⟨-, heq⟩ | ⟨-, -, code, heq⟩ | ⟨-, fresh, -, heq⟩
    · rw [hload] at heq
      simp at heq
    · rw [hload] at heq
      simp at heq
    · rw [hload] at heq
      obtain rfl := Except.ok.inj heq
      exact ⟨root, t, hrep.loadedInto fresh⟩

namespace FsBuf

end FsBuf

end DeepinAnything
