import ClosKernel.Programs.Support

/-!
# Copying a file and listing the directory (`ece391cat.c`, `ece391ls.c`)

Both programs open something, read it until a read returns 0, and write what they get to the terminal.  `cat` asks for
1024 bytes at a time, and since a block has four times as many, its reads are never cut short inside the file; `tWrite`
drops the NUL bytes of each piece and breaks the line behind a piece that ends in one.  `ls` gets a name padded with
NUL bytes to 32, which the terminal drops again.

* `cat_prints_file` — **`cat` prints the file**, in pieces of 1024 bytes, and a file without NUL bytes as it is;
* `ls_prints_names` — **`ls` prints the names of all entries**, one on a line, in the order of the directory.
-/

namespace ClosKernel

open StateProgram

/-! ### The programs -/

def couldNotReadArguments : List UInt8 := ascii "could not read arguments\n".toList
def fileNotFound : List UInt8 := ascii "file not found\n".toList
def fileReadFailed : List UInt8 := ascii "file read failed\n".toList
def directoryOpenFailed : List UInt8 := ascii "directory open failed\n".toList
def directoryReadFailed : List UInt8 := ascii "directory entry read failed\n".toList

/-- One round of the loop of `cat`. -/
def catRound (E : Platform) (fd : ℤ) (buf : Mem) : Prog Process (Mem ⊕ ℤ) := do
  let (cnt, buf) ← ece391Read E fd buf 1024
  if cnt = 0 then pure (.inr 0)
  else if cnt = -1 then do
    ece391Fdputs 1 (literal fileReadFailed)
    pure (.inr 3)
  else do
    let r ← ece391Write 1 buf cnt
    if r = -1 then pure (.inr 3) else pure (.inl buf)

/-- `main` of `ece391cat.c`; `junk` is what its buffer holds at the start. -/
def cat (E : Platform) (junk : Mem) (fuel : ℕ) : Prog Process ℤ := do
  let (r, buf) ← ece391Getargs junk 1024
  if r ≠ 0 then do
    ece391Fdputs 1 (literal couldNotReadArguments)
    pure 3
  else do
    let fd ← ece391Open E buf
    if fd = -1 then do
      ece391Fdputs 1 (literal fileNotFound)
      pure 2
    else loop (catRound E fd) fuel buf

/-- One round of the loop of `ls`. -/
def lsRound (E : Platform) (fd : ℤ) (buf : Mem) : Prog Process (Mem ⊕ ℤ) := do
  let (cnt, buf) ← ece391Read E fd buf 32
  if cnt = 0 then pure (.inr 0)
  else if cnt = -1 then do
    ece391Fdputs 1 (literal directoryReadFailed)
    pure (.inr 3)
  else do
    let buf : Mem := Function.update buf cnt.toNat 0x0A
    let r ← ece391Write 1 buf (cnt + 1)
    if r = -1 then pure (.inr 3) else pure (.inl buf)

/-- `main` of `ece391ls.c`. -/
def ls (E : Platform) (junk : Mem) (fuel : ℕ) : Prog Process ℤ := do
  let fd ← ece391Open E (literal dotName)
  if fd = -1 then do
    ece391Fdputs 1 (literal directoryOpenFailed)
    pure 2
  else loop (lsRound E fd) fuel junk

/-! ### `cat` -/

/-- The bytes of a file from `1024 * i` on, as many as one read of `cat` returns. -/
def Image.piece (img : Image) (inode i : ℕ) : List UInt8 :=
  bytesBelow (fun j => img.fileByte inode (1024 * i + j)) (min 1024 (img.inodeLength inode - 1024 * i))

/-- The first `n` pieces of a file. -/
def Image.pieces (img : Image) (inode n : ℕ) : List (List UInt8) := (List.range n).map (img.piece inode)

/-- The number of pieces of a file. -/
def Image.pieceCount (img : Image) (inode : ℕ) : ℕ := (img.inodeLength inode + 1023) / 1024

section Cat

variable {E : Platform} {s : Process} {inode i : ℕ}

/-- A read from a multiple of 1024 stays inside its block. -/
theorem shortCount_piece (img : Image) (inode n : ℕ) :
    img.shortCount inode (1024 * n) 1024 = min 1024 (img.inodeLength inode - 1024 * n) := by
  rw [Image.shortCount, bytesPerBlock]
  omega

theorem pieces_succ (img : Image) (inode n : ℕ) :
    img.pieces inode (n + 1) = img.pieces inode n ++ [img.piece inode n] := by
  rw [Image.pieces, Image.pieces, List.range_succ, List.map_append, List.map_singleton]

/-- The pieces put together are the beginning of the file. -/
theorem flatten_pieces (img : Image) (inode n : ℕ) :
    (img.pieces inode n).flatten = img.contents inode (min (1024 * n) (img.inodeLength inode)) := by
  induction n with
  | zero => rfl
  | succ n ih =>
    rw [pieces_succ, List.flatten_append, ih, List.flatten_singleton, Image.piece]
    rcases Nat.lt_or_ge (1024 * n) (img.inodeLength inode) with hmore | hend
    · have hsum : min (1024 * (n + 1)) (img.inodeLength inode)
          = 1024 * n + min 1024 (img.inodeLength inode - 1024 * n) := by omega
      rw [Nat.min_eq_left (Nat.le_of_lt hmore), hsum, Image.contents, Image.contents, bytesBelow_add]
    · have hnone : min 1024 (img.inodeLength inode - 1024 * n) = 0 := by omega
      rw [hnone, Nat.min_eq_right hend, Nat.min_eq_right (by omega)]
      exact List.append_nil _

/-- Before round `n` of `cat`: the descriptor stands behind `n` pieces, which have been printed. -/
structure CatState (E : Platform) (s : Process) (inode i n : ℕ) (s' : Process) : Prop where
  stdout : (s'.files 1).OpenOn .term
  did : s.Did ((E.image.pieces inode n).flatMap printedBy)
    (Function.update s.files i (fileSlot inode (min (1024 * n) (E.image.inodeLength inode)))) s'

/-- **One round of `cat`** prints the next piece, if there is one. -/
theorem ensures_catRound (hfile : E.image.RegularFile inode) (hi : 2 ≤ i ∧ i < 8) {n : ℕ} {s' : Process}
    (h : CatState E s inode i n s') (buf : Mem) :
    Ensures (catRound E i buf) s' fun r s'' => if 1024 * n < E.image.inodeLength inode then
        CatState E s inode i (n + 1) s'' ∧ ∃ buf', r = .inl buf'
      else s.Did ((E.image.pieces inode n).flatMap printedBy)
        (Function.update s.files i (fileSlot inode (E.image.inodeLength inode))) s'' ∧ r = .inr 0 := by
  have hslot : s'.files i = fileSlot inode (min (1024 * n) (E.image.inodeLength inode)) := by
    rw [h.did.files, Function.update_self]
  have hread := ensures_read_file (n := 1024) hfile hslot hi (Nat.min_le_right _ _) buf (by decide) (by decide)
  have hupdate : ∀ f, Function.update s'.files i f = Function.update s.files i f := by
    intro f
    rw [h.did.files, Function.update_idem]
  rw [catRound]
  refine hread.bind ?_
  rintro _ s₁ ⟨rfl, hdid₁⟩
  rw [hupdate] at hdid₁
  dsimp only
  by_cases hmore : 1024 * n < E.image.inodeLength inode
  · have hcount : E.image.shortCount inode (min (1024 * n) (E.image.inodeLength inode)) 1024
        = min 1024 (E.image.inodeLength inode - 1024 * n) := by
      rw [Nat.min_eq_left (Nat.le_of_lt hmore), shortCount_piece]
    rw [hcount] at hdid₁ ⊢
    have hout₁ : (s₁.files 1).OpenOn .term := by
      have hterm := h.stdout
      rw [h.did.files, Function.update_of_ne (by omega)] at hterm
      rw [hdid₁.files, Function.update_of_ne (by omega)]
      exact hterm
    rw [if_neg (by omega), if_neg (by omega)]
    refine (ensures_write hout₁ _ _).bind fun r s₂ hr => ?_
    rw [if_neg hr.1]
    refine .pure ?_
    -- what was written is the next piece
    have hbytes : bytesBelow (fun j => if j < min 1024 (E.image.inodeLength inode - 1024 * n) then
          E.image.fileByte inode (min (1024 * n) (E.image.inodeLength inode) + j) else buf j)
        (min 1024 (E.image.inodeLength inode - 1024 * n)) = E.image.piece inode n := by
      rw [Image.piece, Nat.min_eq_left (Nat.le_of_lt hmore)]
      exact bytesBelow_congr fun j hj => if_pos hj
    have hdid := (h.did.trans hdid₁).trans hr.2
    rw [Int.toNat_natCast, hbytes, List.append_nil] at hdid
    rw [if_pos hmore]
    refine ⟨⟨hr.2.files.symm ▸ hout₁, ?_⟩, _, rfl⟩
    have hpos : min (1024 * n) (E.image.inodeLength inode) + min 1024 (E.image.inodeLength inode - 1024 * n)
        = min (1024 * (n + 1)) (E.image.inodeLength inode) := by omega
    rw [hdid₁.files, hpos] at hdid
    rw [pieces_succ, List.flatMap_append, List.flatMap_singleton]
    exact hdid
  · have hcount : E.image.shortCount inode (min (1024 * n) (E.image.inodeLength inode)) 1024 = 0 := by
      rw [Image.shortCount]
      omega
    rw [hcount] at hdid₁ ⊢
    rw [if_pos Nat.cast_zero]
    refine .pure ?_
    rw [if_neg hmore]
    have hdid := h.did.trans hdid₁
    rw [List.append_nil, Nat.add_zero, Nat.min_eq_right (by omega)] at hdid
    exact ⟨hdid, rfl⟩

end Cat

/-- The loop of `cat` prints all pieces. -/
theorem ensures_catLoop {E : Platform} {s s' : Process} {inode i : ℕ} (hfile : E.image.RegularFile inode)
    (hi : 2 ≤ i ∧ i < 8) (h : CatState E s inode i 0 s') (buf : Mem) {fuel : ℕ}
    (hfuel : E.image.inodeLength inode < fuel) :
    Ensures (loop (catRound E i) fuel buf) s' fun r s'' => r = 0 ∧
      s.Did ((E.image.pieces inode (E.image.pieceCount inode)).flatMap printedBy)
        (Function.update s.files i (fileSlot inode (E.image.inodeLength inode))) s'' := by
  -- as many rounds are left as pieces
  refine Ensures.loop (I := fun m _ s'' => ∃ n, m + n = E.image.pieceCount inode ∧ CatState E s inode i n s'') ?_
    ⟨0, rfl, h⟩ (show (E.image.inodeLength inode + 1023) / 1024 < fuel by omega)
  rintro m buf s'' ⟨n, hcount, hstate⟩
  refine (ensures_catRound hfile hi hstate buf).mono fun r s₁ hr => ?_
  have hpieces : E.image.pieceCount inode = (E.image.inodeLength inode + 1023) / 1024 := rfl
  by_cases hmore : 1024 * n < E.image.inodeLength inode
  · rw [if_pos hmore] at hr
    obtain ⟨hnext, buf', rfl⟩ := hr
    exact ⟨m - 1, by omega, n + 1, by omega, hnext⟩
  · rw [if_neg hmore] at hr
    obtain ⟨hdid, rfl⟩ := hr
    obtain rfl : n = E.image.pieceCount inode := by omega
    exact ⟨rfl, hdid⟩

/-- **`cat` prints the file.**  Started with the name of a regular file, of at most 31 bytes and not beginning with
`terminal`, and with a buffer that happens to end the arguments, it writes the file to its terminal in pieces of 1024
bytes and returns 0, whatever happens between its calls; a file without NUL bytes appears as it is. -/
theorem cat_prints_file {E : Platform} {n e : ℕ} (hroot : E.image.Root n) (hentry : E.image.FileEntry n e)
    (hlen : (E.image.entryName e).length ≤ 31) {inode : ℕ} (hinode : E.image.dentryInode e = inode) {s : Process}
    (hargs : Spells s.kernel.cur.arguments (E.image.entryName e)) {junk : Mem}
    (hends : EndsArguments junk (E.image.entryName e).length) {i : ℕ} (hslot : FirstFree s.files i)
    (hout : (s.files 1).OpenOn .term) {fuel : ℕ} (hfuel : E.image.inodeLength inode < fuel) :
    (E.image.pieces inode (E.image.pieceCount inode)).flatten = E.image.contents inode (E.image.inodeLength inode) ∧
    (0 ∉ E.image.contents inode (E.image.inodeLength inode) →
      (E.image.pieces inode (E.image.pieceCount inode)).flatMap printedBy
        = E.image.contents inode (E.image.inodeLength inode)) ∧
    Ensures (cat E junk fuel) s fun r s' => r = 0 ∧
      s.Did ((E.image.pieces inode (E.image.pieceCount inode)).flatMap printedBy)
        (Function.update s.files i (fileSlot inode (E.image.inodeLength inode))) s' := by
  have hpieces : E.image.pieceCount inode = (E.image.inodeLength inode + 1023) / 1024 := rfl
  have hflatten : (E.image.pieces inode (E.image.pieceCount inode)).flatten
      = E.image.contents inode (E.image.inodeLength inode) := by
    rw [flatten_pieces, Nat.min_eq_right (by omega)]
  refine ⟨hflatten, fun hnul => ?_, ?_⟩
  · rw [← hflatten] at hnul ⊢
    rw [List.flatten_eq_flatMap]
    refine List.flatMap_congr fun p hp => printedBy_of_nul_free fun hzero => hnul ?_
    exact List.mem_flatten.mpr ⟨p, hp, hzero⟩
  · have hpos := List.length_pos_iff.mpr (hroot.directory.entryName_ne_nil hentry.entry)
    rw [cat]
    refine (ensures_getargs hargs hpos hends (by omega) (by decide)).bind ?_
    rintro ⟨r, buf⟩ s₁ ⟨hr, hbuf, hdid₁⟩
    dsimp only at hr hbuf ⊢
    rw [if_neg (not_not.mpr hr)]
    refine (ensures_open_file hroot hentry hbuf (hdid₁.files.symm ▸ hslot)).bind ?_
    rintro fd s₂ ⟨rfl, hdid₂⟩
    rw [if_neg (by omega)]
    -- before the first piece
    have hdid := hdid₁.trans hdid₂
    rw [hdid₁.files, List.nil_append, hinode] at hdid
    refine ensures_catLoop (hinode ▸ hentry.file) hslot.bounds ⟨?_, ?_⟩ buf hfuel
    · rw [hdid.files, Function.update_of_ne (by have := hslot.bounds; omega)]
      exact hout
    · rwa [Nat.mul_zero, Nat.zero_min]

/-- An image with the entry of the directory, a file `frame` of two lines and the clock. -/
def frameImage : Image where
  mem :=
    placed 4 [2] <| placed 8 [3] <| placed 64 dotName <| placed 96 [1] <|
    placed 128 (ascii "frame".toList) <| placed 160 [2] <| placed 164 [1] <|
    placed 192 (ascii "rtc".toList) <|
    placed 8192 [6, 0, 0, 0, 1] <| placed 16384 (ascii "ab\ncd\n".toList) fun _ => 0

def framePlatform : Platform := ⟨twoProgramPlatform.layout, frameImage⟩

theorem frameImage_root : frameImage.Root 3 where
  directory := ⟨by decide, by decide⟩
  bound := by decide
  dot := ⟨0, by decide, by decide, by decide, fun d hd => absurd hd (Nat.not_lt_zero d)⟩

theorem frameImage_file : frameImage.FileEntry 3 1 where
  entry := by decide
  first := by decide
  regular := by decide
  notTerminal := by decide
  file :=
    { exists_inode := by decide
      length := by decide
      blocks := fun b hb => by
        have hlen : frameImage.inodeLength (frameImage.dentryInode 1) = 6 := by decide
        rw [show b = 0 by omega]
        decide }

/-- `cat frame` prints both lines. -/
theorem cat_prints_frame : Ensures (cat framePlatform emptyString 7) (startedWith (ascii "frame".toList)) fun r s' =>
    r = 0 ∧ s'.printed = ascii "ab\ncd\n".toList := by
  have hname : frameImage.entryName 1 = ascii "frame".toList := by decide
  have hcontents : frameImage.contents 1 (frameImage.inodeLength 1) = ascii "ab\ncd\n".toList := by decide
  have hcat := @cat_prints_file framePlatform 3 1 frameImage_root frameImage_file (by decide) 1 (by decide)
    (startedWith (ascii "frame".toList)) ?_ emptyString ?_ 2 ?_ ?_ 7 ?_
  · refine hcat.2.2.mono fun r s' hr => ⟨hr.1, ?_⟩
    rw [hr.2.printed, hcat.2.1 ?_]
    · exact hcontents
    · rw [show framePlatform.image = frameImage from rfl, hcontents]
      decide
  · rw [show framePlatform.image = frameImage from rfl, hname]
    exact .literal (by decide)
  · exact Or.inl rfl
  · exact ⟨by decide, by decide, fun j h1 h2 => by omega⟩
  · decide
  · decide

/-! ### `ls` -/

section Ls

variable {E : Platform} {s : Process} {n i : ℕ}

/-- A line of the listing. -/
def nameLine (img : Image) (d : ℕ) : List UInt8 := img.entryName d ++ [0x0A]

/-- The terminal drops the padding of a name. -/
theorem printedBy_nameLine (img : Image) (d : ℕ) (buf : Mem) :
    printedBy (bytesBelow (Function.update (filledWith (img.entryName d) 32 buf) 32 0x0A) 33) = nameLine img d := by
  have hlen := img.entryName_length_le d
  obtain ⟨pad, hpad⟩ : ∃ pad, (img.entryName d).length + pad = 32 := ⟨32 - (img.entryName d).length, by omega⟩
  have hspells : Spells (filledWith (img.entryName d) 32 (literal [])) (img.entryName d) :=
    spells_filledWith (fun j _ => rfl) rfl
  have hzeros : bytesBelow (fun j => filledWith (img.entryName d) 32 buf ((img.entryName d).length + j)) pad
      = List.replicate pad 0 := by
    refine List.eq_replicate_iff.mpr ⟨bytesBelow_length _ _, fun b hb => ?_⟩
    obtain ⟨j, hj, rfl⟩ := List.mem_map.mp hb
    rw [List.mem_range] at hj
    rw [filledWith, if_pos (by omega), List.getD_eq_getElem?_getD, List.getElem?_eq_none (by omega), Option.getD_none]
  have hname : bytesBelow (filledWith (img.entryName d) 32 buf) (img.entryName d).length = img.entryName d := by
    refine Eq.trans (bytesBelow_congr fun j hj => ?_) hspells.bytesBelow
    rw [filledWith, filledWith, if_pos (by omega), if_pos (by omega)]
  have hbelow : bytesBelow (Function.update (filledWith (img.entryName d) 32 buf) 32 0x0A) 33
      = (img.entryName d ++ List.replicate pad 0) ++ [0x0A] := by
    have hbreak : bytesBelow (fun j => Function.update (filledWith (img.entryName d) 32 buf) 32 0x0A (32 + j)) 1
        = [0x0A] := rfl
    rw [show 33 = 32 + 1 from rfl, bytesBelow_add, hbreak,
      bytesBelow_congr fun j hj => Function.update_of_ne (Nat.ne_of_lt hj) _ _, ← hpad, bytesBelow_add, hname, hzeros]
  rw [hbelow, printedBy_append _ (List.cons_ne_nil _ _), nonNul, List.filter_append, List.filter_replicate,
    List.filter_eq_self.mpr fun c hc => ?_]
  · simp [nameLine, printedBy, nonNul, lastBreak]
  · rw [decide_eq_true_eq]
    rintro rfl
    exact hspells.nul_free hc

/-- Before round `m` of `ls`: the first `m` names have been printed. -/
structure LsState (E : Platform) (s : Process) (i m : ℕ) (s' : Process) : Prop where
  stdout : (s'.files 1).OpenOn .term
  did : s.Did ((List.range m).flatMap (nameLine E.image)) (Function.update s.files i (dirSlot m)) s'

/-- **One round of `ls`** prints the next name, if there is one. -/
theorem ensures_lsRound (hroot : E.image.Root n) (hi : 2 ≤ i ∧ i < 8) {m : ℕ} (hm : m ≤ n) {s' : Process}
    (h : LsState E s i m s') (buf : Mem) :
    Ensures (lsRound E i buf) s' fun r s'' => if m < n then
        LsState E s i (m + 1) s'' ∧ ∃ buf', r = .inl buf'
      else s.Did ((List.range n).flatMap (nameLine E.image)) (Function.update s.files i (dirSlot n)) s'' ∧
        r = .inr 0 := by
  have hn := hroot.bound
  have hslot : s'.files i = dirSlot m := by rw [h.did.files, Function.update_self]
  have hread := ensures_read_dir (E := E) hslot hi (by omega) buf (n := 32) (by decide) (by decide)
  rw [lsRound]
  refine hread.bind fun r s₁ hr => ?_
  by_cases hmore : m < n
  · rw [if_neg (hroot.directory.named m hmore)] at hr
    obtain ⟨rfl, hdid₁⟩ := hr
    dsimp only
    rw [if_neg (by decide), if_neg (by decide)]
    have hout₁ : (s₁.files 1).OpenOn .term := by
      rw [hdid₁.files, Function.update_of_ne (by omega)]
      exact h.stdout
    refine (ensures_write hout₁ _ _).bind fun r s₂ hr => ?_
    rw [if_neg hr.1]
    refine .pure ?_
    rw [if_pos hmore]
    refine ⟨⟨hr.2.files.symm ▸ hout₁, ?_⟩, _, rfl⟩
    have hdid := (h.did.trans hdid₁).trans hr.2
    rw [hdid₁.files, h.did.files, Function.update_idem, List.append_nil,
      show ((32 : ℤ) + 1).toNat = 33 from rfl, show (32 : ℤ).toNat = 32 from rfl, printedBy_nameLine] at hdid
    rw [List.range_succ, List.flatMap_append, List.flatMap_singleton]
    exact hdid
  · obtain rfl : m = n := by omega
    rw [if_pos hroot.directory.ends] at hr
    obtain ⟨rfl, hdid₁⟩ := hr
    dsimp only
    rw [if_pos rfl]
    refine .pure ?_
    rw [if_neg hmore]
    have hdid := h.did.trans hdid₁
    rw [List.append_nil, h.did.files] at hdid
    exact ⟨hdid, rfl⟩

/-- **`ls` prints the names of all entries** of a directory with fewer than 63 entries and one for itself, one on a line
and in the order of the directory, and returns 0. -/
theorem ls_prints_names (hroot : E.image.Root n) (hslot : FirstFree s.files i) (hout : (s.files 1).OpenOn .term)
    (junk : Mem) {fuel : ℕ} (hfuel : n < fuel) :
    Ensures (ls E junk fuel) s fun r s' => r = 0 ∧
      s.Did ((List.range n).flatMap (nameLine E.image)) (Function.update s.files i (dirSlot n)) s' := by
  have hi := hslot.bounds
  rw [ls]
  refine (ensures_open_dot hroot hslot).bind ?_
  rintro fd s₁ ⟨rfl, hdid⟩
  rw [if_neg (by omega)]
  refine Ensures.loop (I := fun k _ s' => ∃ m, k + m = n ∧ LsState E s i m s') ?_ ⟨0, rfl, ?_, hdid⟩ hfuel
  · rintro k buf s' ⟨m, hcount, hstate⟩
    refine (ensures_lsRound hroot hi (by omega) hstate buf).mono fun r s₂ hr => ?_
    by_cases hmore : m < n
    · rw [if_pos hmore] at hr
      obtain ⟨hnext, buf', rfl⟩ := hr
      exact ⟨k - 1, by omega, m + 1, by omega, hnext⟩
    · rw [if_neg hmore] at hr
      obtain ⟨hdid, rfl⟩ := hr
      exact ⟨rfl, hdid⟩
  · rw [hdid.files, Function.update_of_ne (by omega)]
    exact hout

end Ls

/-- `ls` prints the names of the image. -/
theorem ls_prints_frame : Ensures (ls framePlatform emptyString 4) (startedWith []) fun r s' =>
    r = 0 ∧ s'.printed = ascii ".\nframe\nrtc\n".toList := by
  have hls := @ls_prints_names framePlatform (startedWith []) 3 2 frameImage_root
    ⟨by decide, by decide, fun j h1 h2 => by omega⟩ (by decide) emptyString 4 (by decide)
  refine hls.mono fun r s' hr => ⟨hr.1, ?_⟩
  rw [hr.2.printed]
  decide

end ClosKernel
