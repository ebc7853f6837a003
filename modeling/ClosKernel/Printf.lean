import ClosKernel.Drivers
import ClosKernel.Lib.BoundedBuffer
import ClosKernel.Lib.Numerals
import Mathlib.Data.List.Induction

/-!
# Formatted output (`printf`, `itoa`, `strrev`)

`itoa` stores the digits of a number from the lowest place on and then has `strrev` turn them round in place.  `printf`
gives it arrays of its own: 64 bytes for `%x` and 36 for `%u` and `%d`.  The arrays are buffers with a size, so that an
access outside of one leaves the call without a result.

* `strrev_holds` — the two indices meet in the middle, and the string is reversed;
* `itoa_holds` — the numeral of a number, with its terminator;
* `convAltX_eq` — `%#x` pads in front of a numeral that stands in the middle of the array;
* `PrintfCall.printf_plain` — a text without conversions is printed as it stands;
* `number_formatting_exact` — **numbers are printed exactly**, by `itoa` and by `printf`.
-/

namespace ClosKernel

open BoundedBuffer Numerals

/-- An `int8_t` array. -/
abbrev CharArray := Buffer UInt8

/-- `lookup`, the digits of `itoa`. -/
def lookupDigits : List UInt8 := ascii "0123456789ABCDEFGHIJKLMNOPQRSTUVWXYZ".toList

/-- The loop of `strlen` for the string at `base`. -/
def strlenIn (base : ℕ) : ℕ → ℕ → CharArray → Option ℕ
  | 0, _, _ => none
  | fuel + 1, len, s =>
    (s.load (base + len)).bind fun c => if c ≠ 0 then strlenIn base fuel (len + 1) s else some len

/-- The loop of `strrev` for the string at `base`. -/
def strrevFrom (base : ℕ) : ℕ → ℕ → ℕ → CharArray → Option CharArray
  | 0, _, _, _ => none
  | fuel + 1, beg, last, s =>
    if beg < last then (s.swap (base + beg) (base + last)).bind (strrevFrom base fuel (beg + 1) (last - 1)) else some s

/-- `strrev`.  For the empty string `end` is -1, and 0 here: the loop does not run for either. -/
def strrev (base : ℕ) (s : CharArray) : Option CharArray :=
  (strlenIn base (s.size + 1) 0 s).bind fun len => strrevFrom base (len + 1) 0 (len - 1) s

/-- The loop of `itoa`: where it stops, and the array. -/
def itoaFrom (radix : ℕ) : ℕ → ℕ → ℕ → CharArray → Option (ℕ × CharArray)
  | 0, _, _, _ => none
  | fuel + 1, newval, newbuf, s =>
    if 0 < newval then
      lookupDigits[newval % radix]?.bind fun c =>
        (s.store newbuf c).bind (itoaFrom radix fuel (newval / radix) (newbuf + 1))
    else some (newbuf, s)

/-- `itoa` into the array from `base` on.  A 32-bit number has at most 32 digits. -/
def itoa (value base radix : ℕ) (s : CharArray) : Option CharArray :=
  if value = 0 then (s.store base 0x30).bind (·.store (base + 1) 0)
  else (itoaFrom radix 33 value base s).bind fun (newbuf, s) => (s.store newbuf 0).bind (strrev base)

/-- `puts` of the string at `index`: the bytes given to `putc`. -/
def putsFrom : ℕ → ℕ → CharArray → Option (List UInt8)
  | 0, _, _ => none
  | fuel + 1, index, s =>
    (s.load index).bind fun c => if c ≠ 0 then (putsFrom fuel (index + 1) s).map (c :: ·) else some []

def putsIn (index : ℕ) (s : CharArray) : Option (List UInt8) := putsFrom (s.size + 1) index s

/-! ### The conversions of `printf` -/

/-- `%x`. -/
def convX (junk : Mem) (value : ℕ) : Option (List UInt8) := (itoa value 0 16 ⟨64, junk⟩).bind (putsIn 0)

/-- The loop that stores `n` zeros from `conv_buf[i]` on. -/
def padZeros : ℕ → ℕ → CharArray → Option CharArray
  | 0, _, s => some s
  | n + 1, i, s => (s.store i 0x30).bind (padZeros n (i + 1))

/-- `%#x`. -/
def convAltX (junk : Mem) (value : ℕ) : Option (List UInt8) :=
  (itoa value 8 16 ⟨64, junk⟩).bind fun s =>
    (strlenIn 8 (s.size + 1) 0 s).bind fun startingIndex =>
      (padZeros (8 - startingIndex) startingIndex s).bind (putsIn startingIndex)

/-- `%u`. -/
def convU (junk : Mem) (value : ℕ) : Option (List UInt8) := (itoa value 0 10 ⟨36, junk⟩).bind (putsIn 0)

/-- `%d`.  The negation wraps, and its result is passed as an unsigned number. -/
def convD (junk : Mem) (value : ℤ) : Option (List UInt8) :=
  if value < 0 then
    (Buffer.store 0 0x2D ⟨36, junk⟩).bind fun s => (itoa (toUInt32 (-value)) 1 10 s).bind (putsIn 0)
  else (itoa (toUInt32 value) 0 10 ⟨36, junk⟩).bind (putsIn 0)

/-- A call of `printf`: the format, the words above it on the stack, the strings that they may point to, and what the
arrays of the conversions hold before. -/
structure PrintfCall where
  format : Mem
  args : ℕ → ℕ
  deref : ℕ → Mem
  junk : ℕ → Mem

namespace PrintfCall

/-- `format_char_switch`, as far as it skips the alternate flag. -/
def skipHash (p : PrintfCall) : ℕ → Bool → ℕ → Option (Bool × ℕ)
  | 0, _, _ => none
  | fuel + 1, alternate, buf => if p.format buf = 0x23 then p.skipHash fuel true (buf + 1) else some (alternate, buf)

/-- The switch over the conversion at `buf`: the bytes printed, and by how much `esp` moves. -/
def convert (p : PrintfCall) (alternate : Bool) (buf esp : ℕ) : Option (List UInt8 × ℕ) :=
  let c := p.format buf
  if c = 0x25 then some ([0x25], 0)
  else if c = 0x78 then
    (if alternate then convAltX (p.junk buf) (p.args esp) else convX (p.junk buf) (p.args esp)).map (·, 1)
  else if c = 0x75 then (convU (p.junk buf) (p.args esp)).map (·, 1)
  else if c = 0x64 then (convD (p.junk buf) (toInt32 (p.args esp))).map (·, 1)
  else if c = 0x63 then some ([UInt8.ofNat (p.args esp)], 1)
  else if c = 0x73 then (strlen (p.deref (p.args esp))).map fun _ => (cString (p.deref (p.args esp)), 1)
  else some ([], 0)

/-- The loop of `printf` at `buf`: the bytes given to `putc`, and where it stops. -/
def printfFrom (p : PrintfCall) : ℕ → ℕ → ℕ → Option (List UInt8 × ℕ)
  | 0, _, _ => none
  | fuel + 1, buf, esp =>
    if p.format buf = 0 then some ([], buf)
    else if p.format buf = 0x25 then
      (p.skipHash (2 ^ 32) false (buf + 1)).bind fun (alternate, buf) =>
        (p.convert alternate buf esp).bind fun (printed, used) =>
          (p.printfFrom fuel (buf + 1) (esp + used)).map fun r => (printed ++ r.1, r.2)
    else (p.printfFrom fuel (buf + 1) esp).map fun r => (p.format buf :: r.1, r.2)

/-- `printf`: the bytes given to `putc`, and the value returned. -/
def printf (p : PrintfCall) : Option (List UInt8 × ℕ) := p.printfFrom (2 ^ 32) 0 0

end PrintfCall

/-! ### Strings in an array -/

section Strings

variable {s : CharArray} {base : ℕ} {text : List UInt8}

theorem strlenIn_holds (h : s.Holds base (text ++ [0])) (hnul : 0 ∉ text) (pre : List UInt8) {post : List UInt8}
    (htext : text = pre ++ post) {fuel : ℕ} (hfuel : post.length < fuel) :
    strlenIn base fuel pre.length s = some text.length := by
  induction post generalizing pre fuel with
  | nil =>
    obtain ⟨fuel, rfl⟩ : ∃ n, fuel = n + 1 := ⟨fuel - 1, by omega⟩
    rw [List.append_nil] at htext
    rw [strlenIn, ← htext, h.load_append, Option.bind_some, if_neg (by decide)]
  | cons c post ih =>
    obtain ⟨fuel, rfl⟩ : ∃ n, fuel = n + 1 := ⟨fuel - 1, by omega⟩
    rw [List.length_cons] at hfuel
    have hc : c ≠ 0 := by
      rintro rfl
      exact hnul (htext ▸ List.mem_append_right _ List.mem_cons_self)
    have hload : s.load (base + pre.length) = some c := by
      rw [htext, List.append_assoc] at h
      exact h.load_append
    have hnext := ih (pre ++ [c]) (by rw [htext]; simp) (Nat.lt_of_succ_lt_succ hfuel)
    rw [List.length_append, List.length_singleton] at hnext
    rw [strlenIn, hload, Option.bind_some, if_pos hc, hnext]

theorem strlenIn_eq (h : s.Holds base (text ++ [0])) (hnul : 0 ∉ text) :
    strlenIn base (s.size + 1) 0 s = some text.length := by
  have hfits := h.fits
  rw [List.length_append, List.length_singleton] at hfits
  exact strlenIn_holds h hnul [] rfl (by omega)

theorem putsFrom_holds (h : s.Holds base (text ++ [0])) (hnul : 0 ∉ text) {fuel : ℕ} (hfuel : text.length < fuel) :
    putsFrom fuel base s = some text := by
  induction text generalizing base fuel with
  | nil =>
    obtain ⟨fuel, rfl⟩ : ∃ n, fuel = n + 1 := ⟨fuel - 1, by omega⟩
    rw [putsFrom, (show s.Holds base [0] from h).load, Option.bind_some, if_neg (by decide)]
  | cons c text ih =>
    obtain ⟨fuel, rfl⟩ : ∃ n, fuel = n + 1 := ⟨fuel - 1, by omega⟩
    rw [List.length_cons] at hfuel
    rw [List.mem_cons, not_or] at hnul
    have hrest : s.Holds (base + 1) (text ++ [0]) := (show s.Holds base ([c] ++ (text ++ [0])) from h).right
    rw [putsFrom, (show s.Holds base (c :: (text ++ [0])) from h).load, Option.bind_some, if_pos (Ne.symm hnul.1),
      ih hrest hnul.2 (by omega), Option.map_some]

theorem putsIn_eq (h : s.Holds base (text ++ [0])) (hnul : 0 ∉ text) : putsIn base s = some text := by
  have hfits := h.fits
  rw [List.length_append, List.length_singleton] at hfits
  exact putsFrom_holds h hnul (by omega)

/-- The two indices move towards each other; what lies between them is still to be reversed. -/
theorem strrevFrom_holds {held pre mid post : List UInt8} (h : s.Holds base (held ++ pre ++ mid ++ post)) {fuel : ℕ}
    (hfuel : mid.length < fuel) :
    ∃ s', strrevFrom (base + held.length) fuel pre.length (pre.length + mid.length - 1) s = some s' ∧
      s'.size = s.size ∧ s'.Holds base (held ++ pre ++ mid.reverse ++ post) := by
  obtain ⟨fuel, rfl⟩ : ∃ n, fuel = n + 1 := ⟨fuel - 1, by omega⟩
  induction mid using List.bidirectionalRec generalizing s pre post fuel with
  | nil => exact ⟨s, by rw [strrevFrom, if_neg (by simp)], rfl, by simpa using h⟩
  | singleton a => exact ⟨s, by rw [strrevFrom, if_neg (by simp)], rfl, by simpa using h⟩
  | cons_append a mid z ih =>
    have hlen : (a :: (mid ++ [z])).length = mid.length + 2 := by simp
    rw [hlen] at hfuel ⊢
    obtain ⟨fuel, rfl⟩ : ∃ n, fuel = n + 1 := ⟨fuel - 1, by omega⟩
    obtain ⟨s₁, hswap, hsize₁, hs₁⟩ := (show s.Holds base (held ++ pre ++ a :: mid ++ z :: post) by simpa using h).swap
    rw [List.length_append, ← Nat.add_assoc] at hswap
    have hstep : s₁.Holds base (held ++ (pre ++ [z]) ++ mid ++ (a :: post)) := by simpa using hs₁
    obtain ⟨s₂, hrest, hsize₂, hs₂⟩ := ih hstep fuel (by omega)
    rw [List.length_append, List.length_singleton] at hrest
    refine ⟨s₂, ?_, hsize₂.trans hsize₁, by simpa using hs₂⟩
    have hlast : base + held.length + (pre.length + (mid.length + 2) - 1) =
        base + held.length + pre.length + mid.length + 1 := by omega
    have hnext : pre.length + (mid.length + 2) - 1 - 1 = pre.length + 1 + mid.length - 1 := by omega
    rw [strrevFrom, if_pos (by omega), hlast, hswap, Option.bind_some, hnext, hrest]

/-- **`strrev`** reverses a string and leaves what stands before it. -/
theorem strrev_holds {held : List UInt8} (h : s.Holds base (held ++ text ++ [0])) (hnul : 0 ∉ text) :
    ∃ s', strrev (base + held.length) s = some s' ∧ s'.size = s.size ∧ s'.Holds base (held ++ text.reverse ++ [0]) := by
  have htext : s.Holds (base + held.length) (text ++ [0]) := by
    rw [List.append_assoc] at h
    exact h.right
  have hall : s.Holds base (held ++ [] ++ text ++ [0]) := by rwa [List.append_nil]
  obtain ⟨s', hrev, hsize, hs'⟩ := strrevFrom_holds hall (Nat.lt_succ_self _)
  rw [List.append_nil] at hs'
  rw [List.length_nil, Nat.zero_add] at hrev
  exact ⟨s', by rw [strrev, strlenIn_eq htext hnul, Option.bind_some, hrev], hsize, hs'⟩

end Strings

/-! ### `itoa` -/

/-- The character of a digit. -/
def digitChar (d : ℕ) : UInt8 := lookupDigits.getD d 0

/-- The text of a number. -/
def numeralText (radix value : ℕ) : List UInt8 := (numeral radix value).map digitChar

theorem lookupDigits_getElem {d : ℕ} (hd : d < 36) : lookupDigits[d]? = some (digitChar d) := by
  have hlen : d < lookupDigits.length := hd
  rw [digitChar, List.getD_eq_getElem?_getD, List.getElem?_eq_getElem hlen, Option.getD_some]

theorem digitChar_ne_zero {d : ℕ} (hd : d < 36) : digitChar d ≠ 0 := by
  have hall : ∀ i : Fin 36, digitChar i ≠ 0 := by decide
  exact hall ⟨d, hd⟩

theorem nul_notMem_map_digitChar {ds : List ℕ} (hds : ∀ d ∈ ds, d < 36) : 0 ∉ ds.map digitChar := by
  intro hmem
  obtain ⟨d, hd, hzero⟩ := List.mem_map.mp hmem
  exact digitChar_ne_zero (hds d hd) hzero

section Itoa

variable {s : CharArray} {base radix value : ℕ} {held : List UInt8}

/-- The digits are stored from the lowest place on. -/
theorem itoaFrom_holds (hradix : 2 ≤ radix) (hlookup : radix ≤ 36) (fuel newval : ℕ) (h : s.Holds base held)
    (hfuel : (Nat.digits radix newval).length < fuel)
    (hroom : base + held.length + (Nat.digits radix newval).length ≤ s.size) :
    ∃ s', itoaFrom radix fuel newval (base + held.length) s =
        some (base + held.length + (Nat.digits radix newval).length, s') ∧
      s'.size = s.size ∧ s'.Holds base (held ++ (Nat.digits radix newval).map digitChar) := by
  induction fuel generalizing newval s held with
  | zero => exact absurd hfuel (Nat.not_lt_zero _)
  | succ fuel ih =>
    rcases Nat.eq_zero_or_pos newval with rfl | hpos
    · exact ⟨s, by rw [itoaFrom, if_neg (Nat.lt_irrefl 0)]; simp, rfl, by simpa using h⟩
    · have hdigit : newval % radix < 36 := Nat.lt_of_lt_of_le (Nat.mod_lt _ (by omega)) hlookup
      rw [Nat.digits_def' (by omega) hpos, List.length_cons] at hfuel hroom ⊢
      obtain ⟨s₁, hstore, hsize₁, hs₁⟩ := h.store_snoc (by omega) (digitChar (newval % radix))
      have hlen : base + (held ++ [digitChar (newval % radix)]).length = base + held.length + 1 := by
        rw [List.length_append, List.length_singleton, Nat.add_assoc]
      obtain ⟨s₂, hrest, hsize₂, hs₂⟩ := ih (newval / radix) hs₁ (by omega) (by rw [hlen, hsize₁]; omega)
      rw [hlen] at hrest
      refine ⟨s₂, ?_, hsize₂.trans hsize₁, by simpa using hs₂⟩
      rw [itoaFrom, if_pos hpos, lookupDigits_getElem hdigit, Option.bind_some, hstore, Option.bind_some, hrest]
      congr 2
      omega

/-- A 32-bit number has at most 32 digits. -/
theorem digits_length_le (hradix : 2 ≤ radix) (hvalue : value < 2 ^ 32) : (Nat.digits radix value).length ≤ 32 :=
  (Nat.digits_length_le_iff (by omega) value).mpr (Nat.lt_of_lt_of_le hvalue (Nat.pow_le_pow_left hradix 32))

theorem numeral_lt (hradix : 2 ≤ radix) (hlookup : radix ≤ 36) : ∀ d ∈ numeral radix value, d < 36 := fun d hd =>
  Nat.lt_of_lt_of_le ((numeral_canonical (by omega) value).lt d hd) hlookup

/-- **`itoa`** leaves the numeral and a terminator, and what stands before. -/
theorem itoa_holds (hradix : 2 ≤ radix) (hlookup : radix ≤ 36) (hvalue : value < 2 ^ 32) (h : s.Holds base held)
    (hroom : base + held.length + (numeral radix value).length < s.size) :
    ∃ s', itoa value (base + held.length) radix s = some s' ∧ s'.size = s.size ∧
      s'.Holds base (held ++ numeralText radix value ++ [0]) := by
  rcases Nat.eq_zero_or_pos value with rfl | hpos
  · -- the special case for zero
    rw [numeral_zero, List.length_singleton] at hroom
    obtain ⟨s₁, hdigit, hsize₁, hs₁⟩ := h.store_snoc (by omega) 0x30
    have hlen : base + (held ++ [(0x30 : UInt8)]).length = base + held.length + 1 := by
      rw [List.length_append, List.length_singleton, Nat.add_assoc]
    obtain ⟨s₂, hnul, hsize₂, hs₂⟩ := hs₁.store_snoc (by rw [hlen]; omega) 0
    rw [hlen] at hnul
    exact ⟨s₂, by rw [itoa, if_pos rfl, hdigit, Option.bind_some, hnul], hsize₂.trans hsize₁, hs₂⟩
  · rw [numeral_of_pos hpos, List.length_reverse] at hroom
    have hfuel := digits_length_le hradix hvalue
    obtain ⟨s₁, hdigits, hsize₁, hs₁⟩ := itoaFrom_holds hradix hlookup 33 value h (by omega) (Nat.le_of_lt hroom)
    have hlen : base + (held ++ (Nat.digits radix value).map digitChar).length =
        base + held.length + (Nat.digits radix value).length := by
      rw [List.length_append, List.length_map, Nat.add_assoc]
    obtain ⟨s₂, hterm, hsize₂, hs₂⟩ := hs₁.store_snoc (by rw [hlen]; omega) 0
    rw [hlen] at hterm
    have hnul : 0 ∉ (Nat.digits radix value).map digitChar :=
      nul_notMem_map_digitChar fun d hd => numeral_lt hradix hlookup d (by
        rw [numeral_of_pos hpos, List.mem_reverse]
        exact hd)
    obtain ⟨s₃, hrev, hsize₃, hs₃⟩ := strrev_holds hs₂ hnul
    refine ⟨s₃, ?_, by rw [hsize₃, hsize₂, hsize₁], ?_⟩
    · rw [itoa, if_neg (by omega), hdigits, Option.bind_some]
      exact Option.bind_eq_some_iff.mpr ⟨s₂, hterm, hrev⟩
    · rw [numeralText, numeral_of_pos hpos, List.map_reverse]
      exact hs₃

end Itoa

/-! ### The conversions -/

section Conversions

variable {value : ℕ}

theorem nul_notMem_numeralText {radix : ℕ} (hradix : 2 ≤ radix) (hlookup : radix ≤ 36) (value : ℕ) :
    0 ∉ numeralText radix value := nul_notMem_map_digitChar (numeral_lt hradix hlookup)

theorem numeral_hex_length_le (hvalue : value < 2 ^ 32) : (numeral 16 value).length ≤ 8 :=
  numeral_length_le (by decide) (by decide) hvalue

theorem numeral_dec_length_le (hvalue : value < 2 ^ 32) : (numeral 10 value).length ≤ 10 :=
  numeral_length_le (by decide) (by decide) (Nat.lt_trans hvalue (by decide))

/-- A new array holds nothing yet. -/
theorem holds_nil_junk {size base : ℕ} (hbase : base ≤ size) (junk : Mem) :
    (⟨size, junk⟩ : CharArray).Holds base [] := Buffer.Holds.nil hbase

/-- A number printed from the start of an array that has room for it. -/
theorem puts_itoa {radix size : ℕ} (hradix : 2 ≤ radix) (hlookup : radix ≤ 36) (hvalue : value < 2 ^ 32)
    (hroom : (numeral radix value).length < size) (junk : Mem) :
    (itoa value 0 radix ⟨size, junk⟩).bind (putsIn 0) = some (numeralText radix value) := by
  obtain ⟨s, hitoa, -, hs⟩ := itoa_holds hradix hlookup hvalue (holds_nil_junk (Nat.zero_le size) junk)
    (by simpa using hroom)
  rw [List.length_nil, Nat.add_zero] at hitoa
  rw [List.nil_append] at hs
  rw [hitoa, Option.bind_some, putsIn_eq hs (nul_notMem_numeralText hradix hlookup value)]

theorem convX_eq (hvalue : value < 2 ^ 32) (junk : Mem) : convX junk value = some (numeralText 16 value) :=
  puts_itoa (by decide) (by decide) hvalue (Nat.lt_of_le_of_lt (numeral_hex_length_le hvalue) (by decide)) junk

theorem convU_eq (hvalue : value < 2 ^ 32) (junk : Mem) : convU junk value = some (numeralText 10 value) :=
  puts_itoa (by decide) (by decide) hvalue (Nat.lt_of_le_of_lt (numeral_dec_length_le hvalue) (by decide)) junk

theorem convD_of_nonneg {value : ℤ} (hnonneg : 0 ≤ value) (hvalue : value < 2 ^ 31) (junk : Mem) :
    convD junk value = some (numeralText 10 value.natAbs) := by
  have habs : toUInt32 value = value.natAbs := by
    rw [toUInt32]
    omega
  have hlt : value.natAbs < 2 ^ 32 := by omega
  rw [convD, if_neg (by omega), habs, ← convU, convU_eq hlt]

/-- The sign stands in front of the string that `itoa` is given.  The smallest number is its own negation, and right as
an unsigned one. -/
theorem convD_of_neg {value : ℤ} (hneg : value < 0) (hvalue : -2 ^ 31 ≤ value) (junk : Mem) :
    convD junk value = some (0x2D :: numeralText 10 value.natAbs) := by
  have habs : toUInt32 (-value) = value.natAbs := by
    rw [toUInt32]
    omega
  have hlt : value.natAbs < 2 ^ 32 := by omega
  have hlen := numeral_dec_length_le hlt
  obtain ⟨s₁, hsign, hsize₁, hs₁⟩ := (holds_nil_junk (Nat.zero_le 36) junk).store_snoc (Nat.zero_lt_succ 35) 0x2D
  have hroom : 0 + ([] ++ [(0x2D : UInt8)]).length + (numeral 10 value.natAbs).length < s₁.size := by
    rw [hsize₁]
    show 1 + (numeral 10 value.natAbs).length < 36
    omega
  obtain ⟨s₂, hitoa, -, hs₂⟩ := itoa_holds (by decide) (by decide) hlt hs₁ hroom
  have hnul : 0 ∉ [] ++ [0x2D] ++ numeralText 10 value.natAbs := by
    rw [List.nil_append, List.singleton_append, List.mem_cons, not_or]
    exact ⟨by decide, nul_notMem_numeralText (by decide) (by decide) _⟩
  rw [convD, if_pos hneg, habs]
  refine Option.bind_eq_some_iff.mpr ⟨s₁, hsign, Option.bind_eq_some_iff.mpr ⟨s₂, hitoa, putsIn_eq hs₂ hnul⟩⟩

/-- The loop stores its zeros behind those it has stored; what stands behind the last one is left. -/
theorem padZeros_holds {s : CharArray} {n base : ℕ} {held text : List UInt8} (hheld : s.Holds base held)
    (htext : s.Holds (base + held.length + n) text) :
    ∃ s', padZeros n (base + held.length) s = some s' ∧ s'.Holds base (held ++ List.replicate n 0x30 ++ text) := by
  induction n generalizing s held with
  | zero => exact ⟨s, rfl, by simpa using hheld.append htext⟩
  | succ n ih =>
    have hfits := htext.fits
    have hlt : base + held.length < s.size := by omega
    have hlen : base + (held ++ [(0x30 : UInt8)]).length = base + held.length + 1 := by
      rw [List.length_append, List.length_singleton, Nat.add_assoc]
    have hheld₁ := (hheld.poke_away (Or.inr (Nat.le_refl _)) 0x30).append (Buffer.Holds.singleton hlt 0x30)
    have htext₁ := htext.poke_away (i := base + held.length) (Or.inl (by omega)) 0x30
    rw [show base + held.length + (n + 1) = base + (held ++ [(0x30 : UInt8)]).length + n by omega] at htext₁
    obtain ⟨s', hpad, hs'⟩ := ih hheld₁ htext₁
    rw [hlen] at hpad
    refine ⟨s', by rw [padZeros, Buffer.store_of_lt hlt, Option.bind_some, hpad], ?_⟩
    simpa [List.replicate_succ] using hs'

/-- `%#x`: the digits that are missing are put in front. -/
theorem convAltX_eq (hvalue : value < 2 ^ 32) (junk : Mem) :
    convAltX junk value = some (List.replicate (8 - (numeral 16 value).length) 0x30 ++ numeralText 16 value) := by
  have hlen := numeral_hex_length_le hvalue
  have hnul := nul_notMem_numeralText (by decide : 2 ≤ 16) (by decide) value
  have hroom : 8 + ([] : List UInt8).length + (numeral 16 value).length < 64 := by
    rw [List.length_nil]
    omega
  obtain ⟨s₁, hitoa, -, hs₁⟩ := itoa_holds (by decide) (by decide) hvalue
    (holds_nil_junk (Nat.le_of_ble_eq_true rfl : 8 ≤ 64) junk) hroom
  rw [List.length_nil, Nat.add_zero] at hitoa
  rw [List.nil_append] at hs₁
  have hstrlen := strlenIn_eq hs₁ hnul
  rw [numeralText, List.length_map] at hstrlen
  -- the padding starts where it ends at index 8
  have hfits := hs₁.fits
  have hstart : s₁.Holds (numeral 16 value).length [] := Buffer.Holds.nil (by omega)
  obtain ⟨s₂, hpad, hs₂⟩ := padZeros_holds (n := 8 - (numeral 16 value).length) hstart (by
    rwa [List.length_nil, Nat.add_zero, Nat.add_sub_cancel' hlen])
  rw [List.nil_append, ← List.append_assoc] at hs₂
  have hputs := putsIn_eq hs₂ (by
    rw [List.mem_append, not_or]
    exact ⟨fun hmem => absurd (List.eq_of_mem_replicate hmem) (by decide), hnul⟩)
  exact Option.bind_eq_some_iff.mpr ⟨s₁, hitoa, Option.bind_eq_some_iff.mpr ⟨_, hstrlen,
    Option.bind_eq_some_iff.mpr ⟨s₂, hpad, hputs⟩⟩⟩

end Conversions

/-! ### Numbers in a format -/

section Format

variable (p : PrintfCall) {buf esp : ℕ}

namespace PrintfCall

/-- The rest of a text without conversions. -/
theorem printfFrom_plain (pre : List UInt8) {text : List UInt8} (hformat : p.format = literal (pre ++ text))
    (hplain : ∀ b ∈ text, b ≠ 0 ∧ b ≠ 0x25) {fuel : ℕ} (hfuel : text.length < fuel) (esp : ℕ) :
    p.printfFrom fuel pre.length esp = some (text, pre.length + text.length) := by
  induction text generalizing pre fuel with
  | nil =>
    obtain ⟨fuel, rfl⟩ : ∃ n, fuel = n + 1 := ⟨fuel - 1, by omega⟩
    have hend : p.format pre.length = 0 := by
      rw [hformat, List.append_nil, literal]
      simp
    rw [printfFrom, if_pos hend]
    rfl
  | cons c text ih =>
    obtain ⟨fuel, rfl⟩ : ∃ n, fuel = n + 1 := ⟨fuel - 1, by omega⟩
    obtain ⟨⟨hnul, hpercent⟩, hrest⟩ := List.forall_mem_cons.mp hplain
    rw [List.length_cons] at hfuel
    have hc : p.format pre.length = c := by
      rw [hformat, literal]
      simp
    have hnext := ih (pre ++ [c]) (by rw [hformat, List.append_assoc]; rfl) hrest (Nat.lt_of_succ_lt_succ hfuel)
    rw [List.length_append, List.length_singleton] at hnext
    rw [printfFrom, hc, if_neg hnul, if_neg hpercent, hnext, Option.map_some, List.length_cons,
      Nat.add_right_comm, Nat.add_assoc]

/-- **A text without conversions is printed as it stands**: so are the messages of the kernel. -/
theorem printf_plain {text : List UInt8} (hformat : p.format = literal text) (hplain : ∀ b ∈ text, b ≠ 0 ∧ b ≠ 0x25)
    (hlen : text.length < 2 ^ 32) : p.printf = some (text, text.length) := by
  have hall := p.printfFrom_plain [] hformat hplain hlen 0
  rwa [List.length_nil, Nat.zero_add] at hall

theorem skipHash_of_ne {alternate : Bool} (h : p.format buf ≠ 0x23) (fuel : ℕ) :
    p.skipHash (fuel + 1) alternate buf = some (alternate, buf) := by
  rw [skipHash, if_neg h]

theorem skipHash_hash {alternate : Bool} (h : p.format buf = 0x23) (hnext : p.format (buf + 1) ≠ 0x23) (fuel : ℕ) :
    p.skipHash (fuel + 2) alternate buf = some (true, buf + 1) := by
  rw [skipHash, if_pos h, skipHash_of_ne p hnext]

/-- One round of the loop over a conversion. -/
theorem printfFrom_convert {alternate : Bool} {c used : ℕ} {printed : List UInt8} (hpercent : p.format buf = 0x25)
    (hskip : p.skipHash (2 ^ 32) false (buf + 1) = some (alternate, c))
    (hconv : p.convert alternate c esp = some (printed, used)) (fuel : ℕ) :
    p.printfFrom (fuel + 1) buf esp =
      (p.printfFrom fuel (c + 1) (esp + used)).map fun r => (printed ++ r.1, r.2) := by
  rw [printfFrom, if_neg (by rw [hpercent]; decide), if_pos hpercent, hskip, Option.bind_some]
  simp only [hconv, Option.bind_some]

theorem skipHash_conversion {c : UInt8} (hc : c ≠ 0x23) (hconv : p.format (buf + 1) = c) :
    p.skipHash (2 ^ 32) false (buf + 1) = some (false, buf + 1) :=
  p.skipHash_of_ne (by rwa [hconv]) (2 ^ 32 - 1)

/-- The conversion at `buf` prints the text of its argument, and the loop goes on at `next` with the next argument. -/
def Prints (buf next esp : ℕ) (text : List UInt8) : Prop :=
  ∀ fuel, p.printfFrom (fuel + 1) buf esp = (p.printfFrom fuel next (esp + 1)).map fun r => (text ++ r.1, r.2)

end PrintfCall

/-- The text is the numeral of a number: digits with its value, without leading zeros. -/
def IsNumeral (radix value : ℕ) (text : List UInt8) : Prop :=
  ∃ ds, Canonical radix value ds ∧ text = ds.map digitChar

/-- There is one such text. -/
theorem isNumeral_iff {radix value : ℕ} (hradix : 2 ≤ radix) {text : List UInt8} :
    IsNumeral radix value text ↔ text = numeralText radix value := by
  constructor
  · rintro ⟨ds, hds, rfl⟩
    rw [numeralText, hds.eq_numeral hradix]
  · rintro rfl
    exact ⟨numeral radix value, numeral_canonical hradix value, rfl⟩

/-- Digits with leading zeros: as many as asked for, with the value. -/
def IsPadded (radix width value : ℕ) (text : List UInt8) : Prop :=
  ∃ ds : List ℕ, ds.length = width ∧ (∀ d ∈ ds, d < radix) ∧ Nat.ofDigits radix ds.reverse = value ∧
    text = ds.map digitChar

theorem isPadded_numeralText {radix width value : ℕ} (hradix : 2 ≤ radix)
    (hlen : (numeral radix value).length ≤ width) :
    IsPadded radix width value
      (List.replicate (width - (numeral radix value).length) 0x30 ++ numeralText radix value) := by
  refine ⟨List.replicate (width - (numeral radix value).length) 0 ++ numeral radix value, ?_, fun d hd => ?_, ?_, ?_⟩
  · rw [List.length_append, List.length_replicate, Nat.sub_add_cancel hlen]
  · rcases List.mem_append.mp hd with hd | hd
    · rw [List.eq_of_mem_replicate hd]
      omega
    · exact (numeral_canonical hradix value).lt d hd
  · rw [ofDigits_padded, (numeral_canonical hradix value).value]
  · rw [List.map_append, List.map_replicate]
    rfl

/-- What the conversions for numbers print, if one of them stands at `buf`. -/
structure PrintfCall.PrintsNumbers (buf esp : ℕ) : Prop where
  unsigned : p.format (buf + 1) = 0x75 → ∃ text, IsNumeral 10 (p.args esp) text ∧ p.Prints buf (buf + 2) esp text
  hexadecimal : p.format (buf + 1) = 0x78 → ∃ text, IsNumeral 16 (p.args esp) text ∧ p.Prints buf (buf + 2) esp text
  signed : p.format (buf + 1) = 0x64 → ∃ text, IsNumeral 10 (toInt32 (p.args esp)).natAbs text ∧
    p.Prints buf (buf + 2) esp (if toInt32 (p.args esp) < 0 then 0x2D :: text else text)
  aligned : p.format (buf + 1) = 0x23 → p.format (buf + 2) = 0x78 →
    ∃ text, IsPadded 16 8 (p.args esp) text ∧ p.Prints buf (buf + 3) esp text

/-- The signed numbers of 32 bits. -/
theorem convD_toInt32 {arg : ℕ} (harg : arg < 2 ^ 32) (junk : Mem) : convD junk (toInt32 arg) =
    some (if toInt32 arg < 0 then 0x2D :: numeralText 10 (toInt32 arg).natAbs
      else numeralText 10 (toInt32 arg).natAbs) := by
  have hlow : -2 ^ 31 ≤ toInt32 arg := by
    rw [toInt32]
    split <;> omega
  have hhigh : toInt32 arg < 2 ^ 31 := by
    rw [toInt32]
    split <;> omega
  by_cases hneg : toInt32 arg < 0
  · rw [if_pos hneg, convD_of_neg hneg hlow]
  · rw [if_neg hneg, convD_of_nonneg (by omega) hhigh]

theorem printsNumbers (hpercent : p.format buf = 0x25) (harg : p.args esp < 2 ^ 32) : p.PrintsNumbers buf esp where
  unsigned hu := by
    refine ⟨numeralText 10 (p.args esp), (isNumeral_iff (by decide)).mpr rfl, ?_⟩
    refine p.printfFrom_convert hpercent (p.skipHash_conversion (by decide) hu) ?_
    simp [PrintfCall.convert, hu, convU_eq harg]
  hexadecimal hx := by
    refine ⟨numeralText 16 (p.args esp), (isNumeral_iff (by decide)).mpr rfl, ?_⟩
    refine p.printfFrom_convert hpercent (p.skipHash_conversion (by decide) hx) ?_
    simp [PrintfCall.convert, hx, convX_eq harg]
  signed hd := by
    refine ⟨numeralText 10 (toInt32 (p.args esp)).natAbs, (isNumeral_iff (by decide)).mpr rfl, ?_⟩
    refine p.printfFrom_convert hpercent (p.skipHash_conversion (by decide) hd) ?_
    simp [PrintfCall.convert, hd, convD_toInt32 harg]
  aligned hhash hx := by
    refine ⟨_, isPadded_numeralText (by decide) (numeral_hex_length_le harg), ?_⟩
    refine p.printfFrom_convert hpercent (p.skipHash_hash hhash (by rw [hx]; decide) (2 ^ 32 - 2)) ?_
    simp [PrintfCall.convert, hx, convAltX_eq harg]

end Format

/-- **Numbers are printed exactly.**  Whatever the array holds, `itoa` leaves the numeral in it, if there is room; and
wherever a conversion for a number stands in a format, it prints the numeral of its argument.  The arrays of `printf`
have the room: an access outside of one would leave the call without a result. -/
theorem number_formatting_exact {value radix base : ℕ} (s : CharArray) (hvalue : value < 2 ^ 32) (hradix : 2 ≤ radix)
    (hlookup : radix ≤ 36) (hroom : base + (numeral radix value).length < s.size) (p : PrintfCall) (buf esp : ℕ)
    (hpercent : p.format buf = 0x25) (harg : p.args esp < 2 ^ 32) :
    (∃ s' text, itoa value base radix s = some s' ∧ IsNumeral radix value text ∧ s'.Holds base (text ++ [0])) ∧
      p.PrintsNumbers buf esp := by
  obtain ⟨s', hitoa, -, hs'⟩ := itoa_holds hradix hlookup hvalue
    (Buffer.Holds.nil (b := s) (show base ≤ s.size by omega)) (by simpa using hroom)
  exact ⟨⟨s', numeralText radix value, hitoa, (isNumeral_iff hradix).mpr rfl, hs'⟩, printsNumbers p hpercent harg⟩

/-- `printf("%d", -2147483648)`. -/
def smallestCall : PrintfCall where
  format := literal (ascii "%d".toList)
  args := fun _ => 2 ^ 31
  deref := fun _ _ => 0
  junk := fun _ _ => 0xAA

theorem number_formatting_exact_smallest :
    (∃ s' text, itoa (2 ^ 32 - 1) 0 2 ⟨33, fun _ => 0xAA⟩ = some s' ∧ IsNumeral 2 (2 ^ 32 - 1) text ∧
        s'.Holds 0 (text ++ [0])) ∧ smallestCall.PrintsNumbers 0 0 ∧
      smallestCall.printf = some (ascii "-2147483648".toList, 2) := by
  have heval : smallestCall.printf = some (ascii "-2147483648".toList, 2) := by decide +kernel
  obtain ⟨hitoa, hprints⟩ := number_formatting_exact ⟨33, fun _ => 0xAA⟩ (show 2 ^ 32 - 1 < 2 ^ 32 by decide)
    (Nat.le_refl 2) (by decide) (show 0 + _ < 33 by decide +kernel) smallestCall 0 0 rfl (by decide)
  exact ⟨hitoa, hprints, heval⟩

end ClosKernel
