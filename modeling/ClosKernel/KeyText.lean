import ClosKernel.Echo

/-!
# The bytes that the keyboard inserts (`keyboard.c`, `keyhelper.c`)

`keyboard_handler` calls `insert` in ten places: plain keys with caps lock off and on, and letters and other keys in the
two shift loops, each with caps lock off and on.  All of them insert one byte for one key.  Two kinds of keys come
there without having a character: keys that the table `getChar` does not list, whose entry is 0, and, while shift is
held, keys that `getShift` does not list, for which it returns -1.

* `typedKeys` — the keys for which `insert` is called;
* `keyEvents_inserts` — **refinement**: the blocks of a handler that returns insert the bytes of these keys, and
  `typedKeys_append` — a handler that waits has inserted a beginning of them;
* `TypedKey.isText_iff` — one key: its byte is text just if it has a character;
* `only_text_inserted_iff` — **the run** over any calls of the handler.
-/

namespace ClosKernel

open PartialRun

/-- A key for which `insert` is called, in a shift loop or not. -/
structure TypedKey where
  shift : Bool
  code : UInt8
  deriving DecidableEq

/-! ### Which keys are typed -/

/-- The keys of the shift loops with caps lock off; the reads may end while the loop waits. -/
def shiftKeys (unshift : UInt8) : List UInt8 → List TypedKey
  | [] | [_] => []
  | first :: scancode :: reads =>
    if first = unshift ∨ scancode = unshift then []
    else (if scancode < scanlimit then [⟨true, scancode⟩] else []) ++ shiftKeys unshift reads

/-- The keys of the shift loops with caps lock on. -/
def capsShiftKeys (unshift : UInt8) : List UInt8 → List TypedKey
  | [] | [_] | [_, _] => []
  | first :: second :: scancode :: reads =>
    if first = unshift ∨ second = unshift then []
    else (if scancode < scanlimit then [⟨true, scancode⟩] else []) ++ capsShiftKeys unshift reads

/-- The keys of a shift loop, whatever caps lock is. -/
def loopKeys (g : KeyMap) (unshift : UInt8) (reads : List UInt8) : List TypedKey :=
  if scan2Let g caps = 0 then shiftKeys unshift reads else capsShiftKeys unshift reads

def pressedKeys (g : KeyMap) (scancode : UInt8) (reads : List UInt8) : List TypedKey :=
  if scan2Let g scancode = lshft then loopKeys g lushft reads
  else if scan2Let g scancode = rshft then loopKeys g rushft reads
  else [⟨false, scancode⟩]

/-- The keys for which one call of `keyboard_handler` calls `insert`. -/
def typedKeys (g : KeyMap) : List UInt8 → List TypedKey
  | [] => []
  | scancode :: reads => if Passes g scancode then [] else pressedKeys g scancode reads

def KeyMap.capsOn (g : KeyMap) : Bool := scan2Let g caps != 0

/-- The byte that is inserted for a key whose entry in the table is `letter`. -/
def byteFor (capsOn shift : Bool) (letter : UInt8) : UInt8 :=
  if lowerlet < letter ∧ letter < upperlet then if shift = capsOn then letter else letter - capchange
  else if shift then getShift letter else letter

def TypedKey.byte (g : KeyMap) (key : TypedKey) : UInt8 := byteFor g.capsOn key.shift (scan2Let g key.code)

/-- The bytes that one call of `keyboard_handler` passes to `insert`. -/
def insertedBytes (g : KeyMap) (reads : List UInt8) : List UInt8 := (typedKeys g reads).map (TypedKey.byte g)

/-! ### The handler inserts the bytes of these keys -/

section Refinement

variable {g g' : KeyMap} {unshift scancode : UInt8} {reads : List UInt8} {events : List KeyEvent}

theorem capsOn_of_off (hcaps : scan2Let g caps = 0) : g.capsOn = false := by
  rw [KeyMap.capsOn, hcaps]
  rfl

theorem capsOn_of_on (hcaps : scan2Let g caps ≠ 0) : g.capsOn = true := bne_iff_ne.mpr hcaps

/-- The body of the shift loops, for `letter` as the key gives it: `upper` is what is inserted if it is one of the
alphabet. -/
theorem round_inserts (scancode : UInt8) {upper : UInt8}
    (hupper : upper = if true = g.capsOn then scan2Let g scancode else scan2Let g scancode - capchange) :
    (if scancode < scanlimit then
        if lowerlet < scan2Let g scancode ∧ scan2Let g scancode < upperlet then [KeyEvent.letter upper]
        else [KeyEvent.letter (getShift (scan2Let g scancode))]
      else []).flatMap KeyEvent.inserts
      = (if scancode < scanlimit then [⟨true, scancode⟩] else []).map (TypedKey.byte g) := by
  by_cases hcode : scancode < scanlimit
  · rw [if_pos hcode, if_pos hcode, List.map_singleton, TypedKey.byte, byteFor, ← hupper]
    split
    · rfl
    · rfl
  · rw [if_neg hcode, if_neg hcode]
    rfl

theorem shifted_inserts (hcaps : scan2Let g caps = 0) (scancode : UInt8) :
    (shifted g scancode).flatMap KeyEvent.inserts
      = (if scancode < scanlimit then [⟨true, scancode⟩] else []).map (TypedKey.byte g) :=
  round_inserts scancode (by rw [capsOn_of_off hcaps]; rfl)

theorem capsShifted_inserts (hcaps : scan2Let g caps ≠ 0) (scancode : UInt8) :
    (capsShifted g scancode).flatMap KeyEvent.inserts
      = (if scancode < scanlimit then [⟨true, scancode⟩] else []).map (TypedKey.byte g) :=
  round_inserts scancode (by rw [capsOn_of_on hcaps]; rfl)

theorem shiftLoop_inserts (hcaps : scan2Let g caps = 0) (h : shiftLoop g unshift reads = some events) :
    events.flatMap KeyEvent.inserts = (shiftKeys unshift reads).map (TypedKey.byte g) := by
  induction reads using shiftKeys.induct unshift generalizing events with
  | case1 => cases h
  | case2 first =>
    rw [shiftLoop] at h
    split at h
    · cases h
      rfl
    · cases h
  | case3 first scancode reads hover =>
    rw [shiftLoop, if_pos hover] at h
    rw [shiftKeys, if_pos hover]
    cases h
    rfl
  | case4 first scancode reads hover ih =>
    rw [shiftLoop, if_neg hover] at h
    rw [shiftKeys, if_neg hover]
    obtain ⟨rest, hrest, rfl⟩ := Option.map_eq_some_iff.mp h
    rw [List.flatMap_append, List.map_append, ih hrest, shifted_inserts hcaps]

theorem capsShiftLoop_inserts (hcaps : scan2Let g caps ≠ 0) (h : capsShiftLoop g unshift reads = some events) :
    events.flatMap KeyEvent.inserts = (capsShiftKeys unshift reads).map (TypedKey.byte g) := by
  induction reads using capsShiftKeys.induct unshift generalizing events with
  | case1 => cases h
  | case2 first =>
    rw [capsShiftLoop] at h
    split at h
    · cases h
      rfl
    · cases h
  | case3 first second =>
    rw [capsShiftLoop] at h
    split at h
    · cases h
      rfl
    · cases h
  | case4 first second scancode reads hover =>
    rw [capsShiftLoop, if_pos hover] at h
    rw [capsShiftKeys, if_pos hover]
    cases h
    rfl
  | case5 first second scancode reads hover ih =>
    rw [capsShiftLoop, if_neg hover] at h
    rw [capsShiftKeys, if_neg hover]
    obtain ⟨rest, hrest, rfl⟩ := Option.map_eq_some_iff.mp h
    rw [List.flatMap_append, List.map_append, ih hrest, capsShifted_inserts hcaps]

theorem pressedKey_inserts (h : pressedKey g scancode reads = some events) :
    events.flatMap KeyEvent.inserts = (pressedKeys g scancode reads).map (TypedKey.byte g) := by
  rw [pressedKey] at h
  rw [pressedKeys]
  by_cases hcaps : scan2Let g caps = 0
  · rw [if_pos hcaps] at h
    rw [loopKeys, loopKeys, if_pos hcaps, if_pos hcaps]
    by_cases hleft : scan2Let g scancode = lshft
    · rw [if_pos hleft] at h ⊢
      exact shiftLoop_inserts hcaps h
    rw [if_neg hleft] at h ⊢
    by_cases hright : scan2Let g scancode = rshft
    · rw [if_pos hright] at h ⊢
      exact shiftLoop_inserts hcaps h
    rw [if_neg hright] at h ⊢
    cases h
    rw [List.map_singleton, TypedKey.byte, byteFor, capsOn_of_off hcaps]
    split <;> rfl
  · rw [if_neg hcaps] at h
    rw [loopKeys, loopKeys, if_neg hcaps, if_neg hcaps]
    by_cases hleft : scan2Let g scancode = lshft
    · rw [if_pos hleft] at h ⊢
      exact capsShiftLoop_inserts hcaps h
    rw [if_neg hleft] at h ⊢
    by_cases hright : scan2Let g scancode = rshft
    · rw [if_pos hright] at h ⊢
      exact capsShiftLoop_inserts hcaps h
    rw [if_neg hright] at h ⊢
    rw [List.map_singleton, TypedKey.byte, byteFor, capsOn_of_on hcaps]
    dsimp only
    by_cases hletter : lowerlet < scan2Let g scancode ∧ scan2Let g scancode < upperlet
    · rw [if_pos hletter] at h ⊢
      cases h
      rfl
    · rw [if_neg hletter] at h ⊢
      cases h
      rfl

/-- **The blocks of the handler insert the bytes of the typed keys.** -/
theorem keyEvents_inserts (h : keyEvents g reads = some (events, g')) :
    events.flatMap KeyEvent.inserts = insertedBytes g reads := by
  cases reads with
  | nil => cases h
  | cons scancode reads =>
    rw [insertedBytes, typedKeys]
    obtain ⟨hpass, hnone, -⟩ | ⟨hpass, hkey, -⟩ := keyEvents_cases h
    · rw [if_pos hpass, hnone]
      rfl
    · rw [if_neg hpass, pressedKey_inserts hkey]

end Refinement

/-! ### A handler that waits -/

section Waiting

variable {unshift : UInt8}

theorem shiftKeys_append (reads more : List UInt8) :
    ∃ rest, shiftKeys unshift (reads ++ more) = shiftKeys unshift reads ++ rest := by
  induction reads using shiftKeys.induct unshift with
  | case1 => exact ⟨_, rfl⟩
  | case2 first => exact ⟨_, rfl⟩
  | case3 first scancode reads hover =>
    refine ⟨[], ?_⟩
    rw [List.cons_append, List.cons_append, shiftKeys, shiftKeys, if_pos hover, if_pos hover]
    rfl
  | case4 first scancode reads hover ih =>
    obtain ⟨rest, hrest⟩ := ih
    refine ⟨rest, ?_⟩
    rw [List.cons_append, List.cons_append, shiftKeys, shiftKeys, if_neg hover, if_neg hover, hrest, List.append_assoc]

theorem capsShiftKeys_append (reads more : List UInt8) :
    ∃ rest, capsShiftKeys unshift (reads ++ more) = capsShiftKeys unshift reads ++ rest := by
  induction reads using capsShiftKeys.induct unshift with
  | case1 => exact ⟨_, rfl⟩
  | case2 first => exact ⟨_, rfl⟩
  | case3 first second => exact ⟨_, rfl⟩
  | case4 first second scancode reads hover =>
    refine ⟨[], ?_⟩
    rw [List.cons_append, List.cons_append, List.cons_append, capsShiftKeys, capsShiftKeys, if_pos hover, if_pos hover]
    rfl
  | case5 first second scancode reads hover ih =>
    obtain ⟨rest, hrest⟩ := ih
    refine ⟨rest, ?_⟩
    rw [List.cons_append, List.cons_append, List.cons_append, capsShiftKeys, capsShiftKeys, if_neg hover, if_neg hover,
      hrest, List.append_assoc]

/-- **A handler that waits for more** has inserted a beginning of what it will have inserted then. -/
theorem typedKeys_append (g : KeyMap) (reads more : List UInt8) :
    ∃ rest, typedKeys g (reads ++ more) = typedKeys g reads ++ rest := by
  have hloop : ∀ u reads, ∃ rest, loopKeys g u (reads ++ more) = loopKeys g u reads ++ rest := by
    intro u reads
    rw [loopKeys, loopKeys]
    split
    · exact shiftKeys_append reads more
    · exact capsShiftKeys_append reads more
  cases reads with
  | nil => exact ⟨_, rfl⟩
  | cons scancode reads =>
    rw [List.cons_append, typedKeys, typedKeys, pressedKeys, pressedKeys]
    split
    · exact ⟨[], rfl⟩
    split
    · exact hloop _ _
    split
    · exact hloop _ _
    · exact ⟨[], rfl⟩

end Waiting

/-! ### Text -/

/-- A line feed or a printable character. -/
def IsText (c : UInt8) : Prop := c = 0x0A ∨ 0x20 ≤ c ∧ c ≤ 0x7E

instance (c : UInt8) : Decidable (IsText c) := inferInstanceAs (Decidable (_ ∨ _))

/-- **The keys that have a character**: the four rows of letters, digits and signs and the minus of the keypad, and
without shift also enter, space, and the other two signs of the keypad. -/
def TypedKey.HasCharacter (key : TypedKey) : Prop :=
  (0x02 ≤ key.code ∧ key.code ≤ 0x0D ∨ 0x10 ≤ key.code ∧ key.code ≤ 0x1B ∨ 0x1E ≤ key.code ∧ key.code ≤ 0x29 ∨
    0x2B ≤ key.code ∧ key.code ≤ 0x35 ∨ key.code = 0x4A) ∨
  key.shift = false ∧ (key.code = entr ∨ key.code = 0x37 ∨ key.code = 0x39 ∨ key.code = 0x4E)

instance (key : TypedKey) : Decidable key.HasCharacter := inferInstanceAs (Decidable (_ ∨ _))

/-- The entry of a code in the table. -/
def tableEntry (capsOn : Bool) (code : UInt8) : UInt8 :=
  if code = caps then if capsOn then 1 else 0 else keyChar code

theorem scan2Let_eq_tableEntry {g : KeyMap} (h : g.Table) {code : UInt8} (hcode : code < scanlimit) :
    scan2Let g code = tableEntry g.capsOn code := by
  rw [tableEntry]
  by_cases hcaps : code = caps
  · rw [if_pos hcaps, hcaps, scan2Let, KeyMap.capsOn, scan2Let]
    obtain hoff | hon := h.caps
    · rw [hoff]
      rfl
    · rw [hon]
      rfl
  · rw [if_neg hcaps]
    exact h.entry code hcode hcaps

/-- What the handler has tested before it inserts for a key. -/
def TypedKey.Tested (capsOn : Bool) (key : TypedKey) : Prop :=
  key.code < scanlimit ∧ (key.shift = false → key.code ≠ caps ∧ key.code ≠ cntrl ∧ key.code ≠ alt ∧ key.code ≠ bksp ∧
    tableEntry capsOn key.code ≠ 0xFF ∧ tableEntry capsOn key.code ≠ lshft ∧ tableEntry capsOn key.code ≠ rshft)

instance (capsOn : Bool) (key : TypedKey) : Decidable (key.Tested capsOn) := inferInstanceAs (Decidable (_ ∧ _))

section Text

variable {g : KeyMap} {key : TypedKey} {reads : List UInt8}

/-- What the loops read is not tested, beyond being the code of a key that is pressed. -/
theorem tested_of_shift {capsOn : Bool} {scancode : UInt8}
    (hkey : key ∈ if scancode < scanlimit then [TypedKey.mk true scancode] else []) : key.Tested capsOn := by
  split at hkey
  · rw [List.mem_singleton.mp hkey]
    exact ⟨‹_›, fun h => by cases h⟩
  · cases hkey

theorem shiftKeys_tested {capsOn : Bool} {unshift : UInt8} (hkey : key ∈ shiftKeys unshift reads) :
    key.Tested capsOn := by
  induction reads using shiftKeys.induct unshift with
  | case1 => cases hkey
  | case2 first => cases hkey
  | case3 first scancode reads hover =>
    rw [shiftKeys, if_pos hover] at hkey
    cases hkey
  | case4 first scancode reads hover ih =>
    rw [shiftKeys, if_neg hover] at hkey
    exact (List.mem_append.mp hkey).elim tested_of_shift ih

theorem capsShiftKeys_tested {capsOn : Bool} {unshift : UInt8} (hkey : key ∈ capsShiftKeys unshift reads) :
    key.Tested capsOn := by
  induction reads using capsShiftKeys.induct unshift with
  | case1 => cases hkey
  | case2 first => cases hkey
  | case3 first second => cases hkey
  | case4 first second scancode reads hover =>
    rw [capsShiftKeys, if_pos hover] at hkey
    cases hkey
  | case5 first second scancode reads hover ih =>
    rw [capsShiftKeys, if_neg hover] at hkey
    exact (List.mem_append.mp hkey).elim tested_of_shift ih

theorem typedKeys_tested (h : g.Table) (hkey : key ∈ typedKeys g reads) : key.Tested g.capsOn := by
  have hloop : ∀ u reads, key ∈ loopKeys g u reads → key.Tested g.capsOn := by
    intro u reads hmem
    rw [loopKeys] at hmem
    split at hmem
    · exact shiftKeys_tested hmem
    · exact capsShiftKeys_tested hmem
  cases reads with
  | nil => cases hkey
  | cons scancode reads =>
    rw [typedKeys] at hkey
    by_cases hpass : Passes g scancode
    · rw [if_pos hpass] at hkey
      cases hkey
    rw [if_neg hpass, pressedKeys] at hkey
    by_cases hleft : scan2Let g scancode = lshft
    · rw [if_pos hleft] at hkey
      exact hloop _ _ hkey
    rw [if_neg hleft] at hkey
    by_cases hright : scan2Let g scancode = rshft
    · rw [if_pos hright] at hkey
      exact hloop _ _ hkey
    rw [if_neg hright] at hkey
    rw [List.mem_singleton.mp hkey]
    simp only [Passes, not_or, UInt8.not_le] at hpass
    obtain ⟨hignored, hcaps, hcntrl, halt, hbksp, hcode⟩ := hpass
    have hentry := scan2Let_eq_tableEntry h hcode
    refine ⟨hcode, fun _ => ⟨?_, hcntrl, halt, hbksp, hentry ▸ hignored, hentry ▸ hleft, hentry ▸ hright⟩⟩
    rintro rfl
    exact hcaps ⟨rfl, h.caps⟩

/-- **One key**: under every modifier, the byte is text just if the key has a character. -/
theorem TypedKey.isText_iff (h : g.Table) (hkey : key.Tested g.capsOn) :
    IsText (key.byte g) ↔ key.HasCharacter := by
  have hall : ∀ (n : Fin 128) (capsOn shift : Bool), (TypedKey.mk shift (UInt8.ofNat n.val)).Tested capsOn →
      (IsText (byteFor capsOn shift (tableEntry capsOn (UInt8.ofNat n.val))) ↔
        (TypedKey.mk shift (UInt8.ofNat n.val)).HasCharacter) := by
    decide +kernel
  have hcase := hall ⟨key.code.toNat, UInt8.lt_iff_toNat_lt.mp hkey.1⟩ g.capsOn key.shift
  rw [UInt8.ofNat_toNat] at hcase
  rw [TypedKey.byte, scan2Let_eq_tableEntry h hkey.1]
  exact hcase hkey

theorem insertedBytes_isText_iff (h : g.Table) (reads : List UInt8) :
    (∀ c ∈ insertedBytes g reads, IsText c) ↔ ∀ key ∈ typedKeys g reads, key.HasCharacter := by
  rw [insertedBytes, List.forall_mem_map]
  exact forall₂_congr fun key hkey => TypedKey.isText_iff h (typedKeys_tested h hkey)

end Text

/-! ### Runs -/

/-- The table after a call of `keyboard_handler` that reads `reads`; it may still be waiting. -/
def tableAfter (reads : List UInt8) (g : KeyMap) : Option KeyMap := (keyEvents g reads).map Prod.snd

/-- **Only text enters the line buffers just if only keys that have a character are typed.**  From the table as the
kernel is loaded, over any calls of the handler with whatever they read, the bytes passed to `insert` are all line feeds
or printable characters if and only if no key without a character comes to be inserted. -/
theorem only_text_inserted_iff {g : KeyMap} (hg : g.Loaded) (calls : List (List UInt8)) :
    (∀ c ∈ emitted tableAfter (fun reads g => insertedBytes g reads) calls g, IsText c) ↔
      ∀ key ∈ emitted tableAfter (fun reads g => typedKeys g reads) calls g, key.HasCharacter := by
  have hkeep : ∀ reads (g g' : KeyMap), g.Table → tableAfter reads g = some g' → g'.Table := by
    intro reads g g' htable hstep
    obtain ⟨⟨events, g''⟩, hkeys, rfl⟩ := Option.map_eq_some_iff.mp hstep
    exact keyEvents_table htable hkeys
  rw [forall_mem_emitted_iff_meets, forall_mem_emitted_iff_meets]
  exact meets_congr_of_invariant hkeep (fun reads g htable => insertedBytes_isText_iff htable reads) hg.table

/-- The letter A, alone, with shift, with caps lock, and with both; then enter. -/
def textCalls : List (List UInt8) :=
  [[0x1E], [0x2A, 0x1E, 0x1E, lushft], [caps], [0x1E], [0x36, 0x1E, 0x1E, 0x1E, rushft], [entr]]

theorem only_text_inserted_letters :
    KeyMap.Loaded loadedKeys ∧
      emitted tableAfter (fun reads g => insertedBytes g reads) textCalls loadedKeys = ascii "aAAa\n".toList ∧
      ∀ c ∈ emitted tableAfter (fun reads g => insertedBytes g reads) textCalls loadedKeys, IsText c :=
  ⟨fun _ _ => rfl, by decide +kernel, (only_text_inserted_iff (fun _ _ => rfl) textCalls).mpr (by decide +kernel)⟩

/-- **What else is inserted.**  Shift and space insert -1, and so does the shift key itself when it repeats; a key that
the table does not list inserts NUL. -/
theorem inserts_no_text :
    emitted tableAfter (fun reads g => insertedBytes g reads)
        [[0x2A, 0x39, 0x39, lushft], [0x2A, 0x2A, 0x2A, lushft], [0x5A]] loadedKeys = [0xFF, 0xFF, 0x00] ∧
      ¬∀ c ∈ emitted tableAfter (fun reads g => insertedBytes g reads) [[0x2A, 0x39, 0x39, lushft]] loadedKeys,
        IsText c := by
  decide +kernel

end ClosKernel
