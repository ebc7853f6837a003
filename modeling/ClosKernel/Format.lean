import ClosKernel.Printf

/-!
# The format of `printf`

A format is a sequence of directives: bytes that are printed as they stand, and conversions with a `%` in front and any
number of `#` between the two.  `printf` moves its pointer in three places, behind the `%`, behind every `#`, and at the
end of a round.  If the format breaks off inside a directive, the second switch is at the NUL, and the end of the round
steps over it.

* `exists_directives` — every format is a sequence of directives, but for one that it may break off in;
* `printfFrom_directive`, `formatReads_directive` — one round of the loop is one directive;
* `printfFrom_congr` — nothing but the bytes that the loop looks at decides what it does;
* `printf_stops_iff` — **`printf` stops at the NUL just if the format does not break off inside a directive**, and
  then it prints the directives from left to right.
-/

namespace ClosKernel

open Numerals

/-! ### Directives -/

/-- The conversions of `printf`. -/
inductive Conversion where
  | percent
  | hexadecimal
  | unsigned
  | signed
  | character
  | string
  | unknown
  deriving DecidableEq

def Conversion.ofByte (c : UInt8) : Conversion :=
  if c = 0x25 then percent
  else if c = 0x78 then hexadecimal
  else if c = 0x75 then unsigned
  else if c = 0x64 then signed
  else if c = 0x63 then character
  else if c = 0x73 then string
  else unknown

/-- How many arguments a conversion takes. -/
def Conversion.uses : Conversion → ℕ
  | percent | unknown => 0
  | hexadecimal | unsigned | signed | character | string => 1

/-- A byte that is printed as it stands, or a conversion. -/
inductive Directive where
  | plain (c : UInt8) (hc : c ≠ 0 ∧ c ≠ 0x25)
  | conversion (hashes : ℕ) (c : UInt8) (hc : c ≠ 0 ∧ c ≠ 0x23)

namespace Directive

/-- The bytes of the format. -/
def text : Directive → List UInt8
  | plain c _ => [c]
  | conversion hashes c _ => 0x25 :: (List.replicate hashes 0x23 ++ [c])

def uses : Directive → ℕ
  | plain _ _ => 0
  | conversion _ c _ => (Conversion.ofByte c).uses

theorem conversion_length (hashes : ℕ) (c : UInt8) (hc : c ≠ 0 ∧ c ≠ 0x23) :
    (conversion hashes c hc).text.length = hashes + 2 := by
  simp [text]

theorem text_length_pos (d : Directive) : 0 < d.text.length := by
  cases d with
  | plain c hc => exact Nat.zero_lt_one
  | conversion hashes c hc => exact Nat.zero_lt_succ _

end Directive

/-- The beginning of a conversion, without the byte that says which one. -/
def IsCut (tail : List UInt8) : Prop := ∃ hashes, tail = 0x25 :: List.replicate hashes 0x23

theorem exists_hashes (s : List UInt8) : ∃ n rest, s = List.replicate n 0x23 ++ rest ∧ rest.head? ≠ some 0x23 := by
  induction s with
  | nil => exact ⟨0, [], rfl, by simp⟩
  | cons c s ih =>
    by_cases hc : c = 0x23
    · obtain ⟨n, rest, rfl, hrest⟩ := ih
      exact ⟨n + 1, rest, by rw [hc, List.replicate_succ, List.cons_append], hrest⟩
    · exact ⟨0, c :: s, rfl, by simpa using hc⟩

/-- **Every format is a sequence of directives**, but for one that it breaks off in. -/
theorem exists_directives {s : List UInt8} (hs : 0 ∉ s) :
    ∃ (ds : List Directive) (tail : List UInt8), s = ds.flatMap Directive.text ++ tail ∧ (tail = [] ∨ IsCut tail) := by
  induction hn : s.length using Nat.strong_induction_on generalizing s with
  | _ n ih =>
    subst hn
    cases s with
    | nil => exact ⟨[], [], rfl, Or.inl rfl⟩
    | cons c s =>
      rw [List.mem_cons, not_or] at hs
      by_cases hc : c = 0x25
      · obtain ⟨hashes, rest, rfl, hrest⟩ := exists_hashes s
        cases rest with
        | nil => exact ⟨[], _, rfl, Or.inr ⟨hashes, by rw [hc, List.append_nil]⟩⟩
        | cons b rest =>
          rw [List.mem_append, List.mem_cons, not_or, not_or] at hs
          have hb : b ≠ 0 ∧ b ≠ 0x23 := ⟨Ne.symm hs.2.2.1, by simpa using hrest⟩
          obtain ⟨ds, tail, rfl, htail⟩ := ih rest.length (by simp; omega) hs.2.2.2 rfl
          refine ⟨.conversion hashes b hb :: ds, tail, ?_, htail⟩
          simp [Directive.text, hc]
      · obtain ⟨ds, tail, rfl, htail⟩ := ih s.length (Nat.lt_succ_self _) hs.2 rfl
        exact ⟨.plain c ⟨Ne.symm hs.1, hc⟩ :: ds, tail, rfl, htail⟩

theorem length_le_texts (ds : List Directive) : ds.length ≤ (ds.flatMap Directive.text).length := by
  induction ds with
  | nil => exact Nat.le_refl 0
  | cons d ds ih =>
    have hpos := d.text_length_pos
    rw [List.flatMap_cons, List.length_append, List.length_cons]
    omega

/-! ### What the directives print -/

/-- A signed number. -/
def signedText (value : ℤ) : List UInt8 :=
  if value < 0 then 0x2D :: numeralText 10 value.natAbs else numeralText 10 value.natAbs

namespace PrintfCall

/-- The text of the argument at `esp`. -/
def converted (p : PrintfCall) (alternate : Bool) (esp : ℕ) : Conversion → List UInt8
  | .percent => [0x25]
  | .hexadecimal =>
    if alternate then
      List.replicate (8 - (numeral 16 (p.args esp)).length) 0x30 ++ numeralText 16 (p.args esp)
    else numeralText 16 (p.args esp)
  | .unsigned => numeralText 10 (p.args esp)
  | .signed => signedText (toInt32 (p.args esp))
  | .character => [UInt8.ofNat (p.args esp)]
  | .string => cString (p.deref (p.args esp))
  | .unknown => []

def printed (p : PrintfCall) (esp : ℕ) : Directive → List UInt8
  | .plain c _ => [c]
  | .conversion hashes c _ => p.converted (decide (0 < hashes)) esp (.ofByte c)

/-- What the directives print, one after the other, with the arguments from `esp` on. -/
def output (p : PrintfCall) : List Directive → ℕ → List UInt8
  | [], _ => []
  | d :: ds, esp => p.printed esp d ++ p.output ds (esp + d.uses)

/-- A string that is to be printed has an end. -/
def Ends (p : PrintfCall) (esp : ℕ) : Directive → Prop
  | .plain _ _ => True
  | .conversion _ c _ => Conversion.ofByte c = .string → ∃ i < 2 ^ 32, p.deref (p.args esp) i = 0

/-- All strings that the directives print have an end. -/
def StringsEnd (p : PrintfCall) : List Directive → ℕ → Prop
  | [], _ => True
  | d :: ds, esp => p.Ends esp d ∧ p.StringsEnd ds (esp + d.uses)

/-! ### Which bytes are looked at -/

/-- The indices of the format that the switch over the conversion looks at. -/
def skipReads (p : PrintfCall) : ℕ → ℕ → List ℕ
  | 0, _ => []
  | fuel + 1, buf => buf :: if p.format buf = 0x23 then p.skipReads fuel (buf + 1) else []

/-- The indices of the format that the loop looks at. -/
def formatReads (p : PrintfCall) : ℕ → ℕ → ℕ → List ℕ
  | 0, _, _ => []
  | fuel + 1, buf, esp =>
    buf :: if p.format buf = 0 then []
      else if p.format buf = 0x25 then
        p.skipReads (2 ^ 32) (buf + 1) ++
          (((p.skipHash (2 ^ 32) false (buf + 1)).bind fun r =>
            (p.convert r.1 r.2 esp).map fun c => p.formatReads fuel (r.2 + 1) (esp + c.2)).getD [])
      else p.formatReads fuel (buf + 1) esp

end PrintfCall

/-- The bytes from index `i` on. -/
def SpellsAt (m : Mem) : ℕ → List UInt8 → Prop
  | _, [] => True
  | i, c :: text => m i = c ∧ SpellsAt m (i + 1) text

theorem spellsAt_append {m : Mem} {i : ℕ} {text rest : List UInt8} :
    SpellsAt m i (text ++ rest) ↔ SpellsAt m i text ∧ SpellsAt m (i + text.length) rest := by
  induction text generalizing i with
  | nil => exact ⟨fun h => ⟨trivial, h⟩, fun h => h.2⟩
  | cons c text ih =>
    rw [List.cons_append, SpellsAt, SpellsAt, ih, List.length_cons, and_assoc, Nat.add_right_comm, ← Nat.add_assoc]

theorem Spells.spellsAt {m : Mem} {text : List UInt8} (h : Spells m text) : SpellsAt m 0 (text ++ [0]) := by
  have hfrom : ∀ pre rest, text = pre ++ rest → SpellsAt m pre.length (rest ++ [0]) := by
    intro pre rest
    induction rest generalizing pre with
    | nil =>
      intro htext
      refine ⟨?_, trivial⟩
      rw [h.bytes _ (by rw [htext]; simp), htext]
      simp
    | cons c rest ih =>
      intro htext
      have hnext := ih (pre ++ [c]) (by rw [htext, List.append_assoc]; rfl)
      rw [List.length_append, List.length_singleton] at hnext
      refine ⟨?_, hnext⟩
      rw [h.bytes _ (by rw [htext]; simp), htext]
      simp
  exact hfrom [] text rfl

/-! ### One directive -/

section Rounds

variable (p : PrintfCall) {buf esp : ℕ}

theorem strlen_ne_none_iff (s : Mem) : strlen s ≠ none ↔ ∃ i < 2 ^ 32, s i = 0 := by
  constructor
  · intro h
    obtain ⟨len, hlen⟩ := Option.ne_none_iff_exists'.mp h
    obtain ⟨hlt, hzero, -⟩ := (strlen_eq_some_iff s len).mp hlen
    exact ⟨len, hlt, hzero⟩
  · rintro ⟨i, hi, hzero⟩
    -- the first NUL
    have hex : ∃ j, s j = 0 := ⟨i, hzero⟩
    have hfirst : strlen s = some (Nat.find hex) :=
      (strlen_eq_some_iff s _).mpr ⟨(Nat.find_min' hex hzero).trans_lt hi, Nat.find_spec hex,
        fun j hj => Nat.find_min hex hj⟩
    rw [hfirst]
    exact Option.some_ne_none _

namespace PrintfCall

/-- **The switch over the conversion.**  It does not come back just if it prints a string without an end. -/
theorem convert_eq (alternate : Bool) (harg : p.args esp < 2 ^ 32) : p.convert alternate buf esp =
    if Conversion.ofByte (p.format buf) = .string ∧ strlen (p.deref (p.args esp)) = none then none
    else some (p.converted alternate esp (.ofByte (p.format buf)), (Conversion.ofByte (p.format buf)).uses) := by
  rw [convert]
  generalize p.format buf = c
  rw [Conversion.ofByte]
  split
  · rfl
  split
  · cases alternate with
    | false =>
      rw [convX_eq harg]
      rfl
    | true =>
      rw [convAltX_eq harg]
      rfl
  split
  · rw [convU_eq harg]
    rfl
  split
  · rw [convD_toInt32 harg]
    rfl
  split
  · rfl
  split
  · cases strlen (p.deref (p.args esp)) with
    | none => rfl
    | some len => rfl
  · rfl

/-- The `#`s are skipped up to the next byte. -/
theorem skipHash_hashes {n fuel : ℕ} (hhashes : SpellsAt p.format buf (List.replicate n 0x23))
    (hnext : p.format (buf + n) ≠ 0x23) (hfuel : n < fuel) (alternate : Bool) :
    p.skipHash fuel alternate buf = some (alternate || decide (0 < n), buf + n) ∧
      p.skipReads fuel buf = List.range' buf (n + 1) := by
  induction n generalizing buf fuel alternate with
  | zero =>
    obtain ⟨fuel, rfl⟩ : ∃ m, fuel = m + 1 := ⟨fuel - 1, by omega⟩
    rw [Nat.add_zero] at hnext
    refine ⟨?_, ?_⟩
    · rw [skipHash_of_ne p hnext, decide_eq_false (Nat.lt_irrefl 0), Bool.or_false]
      rfl
    · rw [skipReads, if_neg hnext]
      rfl
  | succ n ih =>
    obtain ⟨fuel, rfl⟩ : ∃ m, fuel = m + 1 := ⟨fuel - 1, by omega⟩
    obtain ⟨hhash, hrest⟩ := hhashes
    have hplace : buf + (n + 1) = buf + 1 + n := by omega
    rw [hplace] at hnext
    obtain ⟨hskip, hreads⟩ := ih hrest hnext (Nat.lt_of_succ_lt_succ hfuel) true
    refine ⟨?_, ?_⟩
    · rw [skipHash, if_pos hhash, hskip, hplace, Bool.true_or, decide_eq_true (Nat.succ_pos n), Bool.or_true]
    · rw [skipReads, if_pos hhash, hreads, ← List.range'_succ]

/-- The pointer in front of a conversion: it stops at the byte that says which one. -/
theorem skip_to_conversion {hashes : ℕ} {c : UInt8} (hc : c ≠ 0x23)
    (hd : SpellsAt p.format buf (0x25 :: (List.replicate hashes 0x23 ++ [c]))) (hlen : hashes < 2 ^ 32) :
    p.format buf = 0x25 ∧ p.format (buf + 1 + hashes) = c ∧
      p.skipHash (2 ^ 32) false (buf + 1) = some (decide (0 < hashes), buf + 1 + hashes) ∧
      p.skipReads (2 ^ 32) (buf + 1) = List.range' (buf + 1) (hashes + 1) := by
  obtain ⟨hpercent, hrest⟩ := hd
  obtain ⟨hhashes, hlast⟩ := spellsAt_append.mp hrest
  rw [List.length_replicate] at hlast
  have hnext : p.format (buf + 1 + hashes) ≠ 0x23 := by
    rw [hlast.1]
    exact hc
  obtain ⟨hskip, hreads⟩ := p.skipHash_hashes hhashes hnext hlen false
  rw [Bool.false_or] at hskip
  exact ⟨hpercent, hlast.1, hskip, hreads⟩

theorem convert_of_ends {hashes : ℕ} {c : UInt8} {hc : c ≠ 0 ∧ c ≠ 0x23} (hformat : p.format buf = c)
    (harg : p.args esp < 2 ^ 32) (hends : p.Ends esp (.conversion hashes c hc)) :
    p.convert (decide (0 < hashes)) buf esp
      = some (p.printed esp (.conversion hashes c hc), (Conversion.ofByte c).uses) := by
  rw [convert_eq p _ harg, hformat, if_neg]
  · rfl
  · rintro ⟨hstring, hnone⟩
    exact (strlen_ne_none_iff _).mpr (hends hstring) hnone

variable {d : Directive}

/-- **One round of the loop is one directive.** -/
theorem printfFrom_directive (hd : SpellsAt p.format buf d.text) (hlen : d.text.length ≤ 2 ^ 32)
    (harg : p.args esp < 2 ^ 32) (hends : p.Ends esp d) (fuel : ℕ) :
    p.printfFrom (fuel + 1) buf esp = (p.printfFrom fuel (buf + d.text.length) (esp + d.uses)).map
      fun r => (p.printed esp d ++ r.1, r.2) := by
  cases d with
  | plain c hc =>
    obtain ⟨hformat, -⟩ := hd
    rw [printfFrom, hformat, if_neg hc.1, if_neg hc.2]
    rfl
  | conversion hashes c hc =>
    rw [Directive.conversion_length] at hlen ⊢
    obtain ⟨hpercent, hformat, hskip, -⟩ := p.skip_to_conversion hc.2 hd (by omega)
    rw [p.printfFrom_convert hpercent hskip (p.convert_of_ends hformat harg hends),
      show buf + (hashes + 2) = buf + 1 + hashes + 1 by omega]
    rfl

/-- It looks at the bytes of the directive. -/
theorem formatReads_directive (hd : SpellsAt p.format buf d.text) (hlen : d.text.length ≤ 2 ^ 32)
    (harg : p.args esp < 2 ^ 32) (hends : p.Ends esp d) (fuel : ℕ) :
    p.formatReads (fuel + 1) buf esp
      = List.range' buf d.text.length ++ p.formatReads fuel (buf + d.text.length) (esp + d.uses) := by
  cases d with
  | plain c hc =>
    obtain ⟨hformat, -⟩ := hd
    rw [formatReads, hformat, if_neg hc.1, if_neg hc.2]
    rfl
  | conversion hashes c hc =>
    rw [Directive.conversion_length] at hlen ⊢
    obtain ⟨hpercent, hformat, hskip, hreads⟩ := p.skip_to_conversion hc.2 hd (by omega)
    rw [formatReads, if_neg (by rw [hpercent]; decide), if_pos hpercent, hskip, Option.bind_some, hreads,
      p.convert_of_ends hformat harg hends, List.range'_succ, List.cons_append,
      show buf + (hashes + 2) = buf + 1 + hashes + 1 by omega]
    rfl

/-- A string without an end is printed for ever. -/
theorem printfFrom_of_not_ends (hd : SpellsAt p.format buf d.text) (hlen : d.text.length ≤ 2 ^ 32)
    (harg : p.args esp < 2 ^ 32) (hends : ¬p.Ends esp d) (fuel : ℕ) : p.printfFrom fuel buf esp = none := by
  cases fuel with
  | zero => rfl
  | succ fuel =>
    cases d with
    | plain c hc => exact absurd trivial hends
    | conversion hashes c hc =>
      rw [Directive.conversion_length] at hlen
      obtain ⟨hpercent, hformat, hskip, -⟩ := p.skip_to_conversion hc.2 hd (by omega)
      obtain ⟨hstring, hforever⟩ := Classical.not_imp.mp hends
      have hnone : strlen (p.deref (p.args esp)) = none := not_not.mp (mt (strlen_ne_none_iff _).mp hforever)
      have hconvert : p.convert (decide (0 < hashes)) (buf + 1 + hashes) esp = none := by
        rw [convert_eq p _ harg, hformat, if_pos ⟨hstring, hnone⟩]
      rw [printfFrom, if_neg (by rw [hpercent]; decide), if_pos hpercent, hskip, Option.bind_some]
      simp only [hconvert, Option.bind_none]

/-- Where the format breaks off, the round ends behind the NUL. -/
theorem formatReads_cut {tail : List UInt8} (htail : IsCut tail) (hd : SpellsAt p.format buf (tail ++ [0]))
    (hlen : tail.length ≤ 2 ^ 32) (harg : p.args esp < 2 ^ 32) :
    buf + tail.length + 1 ∈ p.formatReads 2 buf esp := by
  obtain ⟨hashes, rfl⟩ := htail
  rw [List.length_cons, List.length_replicate] at hlen ⊢
  obtain ⟨hpercent, hformat, hskip, -⟩ := p.skip_to_conversion (by decide) hd (by omega)
  have hconvert : p.convert (decide (0 < hashes)) (buf + 1 + hashes) esp = some ([], 0) := by
    rw [convert_eq p _ harg, hformat]
    rfl
  rw [formatReads, if_neg (by rw [hpercent]; decide), if_pos hpercent, hskip, Option.bind_some, hconvert]
  apply List.mem_cons_of_mem
  apply List.mem_append_right
  show buf + (hashes + 1) + 1 ∈ p.formatReads 1 (buf + 1 + hashes + 1) esp
  rw [formatReads, show buf + (hashes + 1) + 1 = buf + 1 + hashes + 1 by omega]
  exact List.mem_cons_self

end PrintfCall

end Rounds

/-! ### All directives -/

section Runs

variable (p : PrintfCall) {buf esp : ℕ} {ds : List Directive}

namespace PrintfCall

/-- The parts of a format behind its first directive. -/
theorem spellsAt_directives {d : Directive} {tail : List UInt8}
    (h : SpellsAt p.format buf ((d :: ds).flatMap Directive.text ++ tail))
    (hlen : ((d :: ds).flatMap Directive.text ++ tail).length ≤ 2 ^ 32) :
    SpellsAt p.format buf d.text ∧ d.text.length ≤ 2 ^ 32 ∧
      SpellsAt p.format (buf + d.text.length) (ds.flatMap Directive.text ++ tail) ∧
      (ds.flatMap Directive.text ++ tail).length ≤ 2 ^ 32 := by
  rw [List.flatMap_cons, List.append_assoc] at h hlen
  obtain ⟨hd, hrest⟩ := spellsAt_append.mp h
  rw [List.length_append] at hlen
  exact ⟨hd, by omega, hrest, by omega⟩

/-- **The run over the directives.** -/
theorem printfFrom_directives (hargs : ∀ i, p.args i < 2 ^ 32)
    (h : SpellsAt p.format buf (ds.flatMap Directive.text ++ [0]))
    (hlen : (ds.flatMap Directive.text ++ [0]).length ≤ 2 ^ 32) (hends : p.StringsEnd ds esp) {fuel : ℕ}
    (hfuel : ds.length < fuel) :
    p.printfFrom fuel buf esp = some (p.output ds esp, buf + (ds.flatMap Directive.text).length) := by
  induction ds generalizing buf esp fuel with
  | nil =>
    obtain ⟨fuel, rfl⟩ : ∃ n, fuel = n + 1 := ⟨fuel - 1, by omega⟩
    rw [printfFrom, if_pos h.1]
    rfl
  | cons d ds ih =>
    obtain ⟨fuel, rfl⟩ : ∃ n, fuel = n + 1 := ⟨fuel - 1, by omega⟩
    obtain ⟨hd, hshort, hrest, hlen'⟩ := p.spellsAt_directives h hlen
    have hnext := ih hrest hlen' hends.2 (Nat.lt_of_succ_lt_succ hfuel)
    rw [printfFrom_directive p hd hshort (hargs esp) hends.1, hnext, Option.map_some, List.flatMap_cons,
      List.length_append, Nat.add_assoc]
    rfl

/-- However long it runs, it looks at no byte behind the NUL. -/
theorem formatReads_le (hargs : ∀ i, p.args i < 2 ^ 32)
    (h : SpellsAt p.format buf (ds.flatMap Directive.text ++ [0]))
    (hlen : (ds.flatMap Directive.text ++ [0]).length ≤ 2 ^ 32) (hends : p.StringsEnd ds esp) (fuel : ℕ) :
    ∀ i ∈ p.formatReads fuel buf esp, i ≤ buf + (ds.flatMap Directive.text).length := by
  induction ds generalizing buf esp fuel with
  | nil =>
    cases fuel with
    | zero => exact fun i hi => absurd hi List.not_mem_nil
    | succ fuel =>
      intro i hi
      rw [formatReads, if_pos h.1, List.mem_singleton] at hi
      rw [hi]
      exact Nat.le_add_right ..
  | cons d ds ih =>
    cases fuel with
    | zero => exact fun i hi => absurd hi List.not_mem_nil
    | succ fuel =>
      obtain ⟨hd, hshort, hrest, hlen'⟩ := p.spellsAt_directives h hlen
      intro i hi
      rw [formatReads_directive p hd hshort (hargs esp) hends.1] at hi
      rw [List.flatMap_cons, List.length_append]
      rcases List.mem_append.mp hi with hi | hi
      · have hbound := (List.mem_range'_1.mp hi).2
        omega
      · have hbound := ih hrest hlen' hends.2 fuel i hi
        omega

/-- If the format breaks off behind the directives, the loop comes to the byte behind the NUL. -/
theorem exists_formatReads_behind (hargs : ∀ i, p.args i < 2 ^ 32) {tail : List UInt8} (htail : IsCut tail)
    (h : SpellsAt p.format buf (ds.flatMap Directive.text ++ (tail ++ [0])))
    (hlen : (ds.flatMap Directive.text ++ (tail ++ [0])).length ≤ 2 ^ 32) (hends : p.StringsEnd ds esp) :
    ∃ fuel, buf + (ds.flatMap Directive.text ++ tail).length + 1 ∈ p.formatReads fuel buf esp := by
  induction ds generalizing buf esp with
  | nil =>
    rw [List.flatMap_nil, List.nil_append, List.length_append] at hlen
    have hmem := p.formatReads_cut htail h (by omega) (hargs esp)
    exact ⟨2, hmem⟩
  | cons d ds ih =>
    obtain ⟨hd, hshort, hrest, hlen'⟩ := p.spellsAt_directives h hlen
    obtain ⟨fuel, hmem⟩ := ih hrest hlen' hends.2
    refine ⟨fuel + 1, ?_⟩
    rw [formatReads_directive p hd hshort (hargs esp) hends.1, List.flatMap_cons, List.append_assoc,
      List.length_append, ← Nat.add_assoc]
    exact List.mem_append_right _ hmem

/-- A string without an end keeps `printf` from coming back. -/
theorem printfFrom_of_not_stringsEnd (hargs : ∀ i, p.args i < 2 ^ 32) {tail : List UInt8}
    (h : SpellsAt p.format buf (ds.flatMap Directive.text ++ tail))
    (hlen : (ds.flatMap Directive.text ++ tail).length ≤ 2 ^ 32) (hends : ¬p.StringsEnd ds esp) (fuel : ℕ) :
    p.printfFrom fuel buf esp = none := by
  induction ds generalizing buf esp fuel with
  | nil => exact absurd trivial hends
  | cons d ds ih =>
    obtain ⟨hd, hshort, hrest, hlen'⟩ := p.spellsAt_directives h hlen
    by_cases hfirst : p.Ends esp d
    · have hlater : ¬p.StringsEnd ds (esp + d.uses) := fun hds => hends ⟨hfirst, hds⟩
      cases fuel with
      | zero => rfl
      | succ fuel =>
        rw [printfFrom_directive p hd hshort (hargs esp) hfirst, ih hrest hlen' hlater fuel]
        rfl
    · exact p.printfFrom_of_not_ends hd hshort (hargs esp) hfirst fuel

end PrintfCall

end Runs

/-! ### The bytes that decide -/

namespace PrintfCall

variable (p : PrintfCall) {f : Mem}

theorem convert_congr {alternate : Bool} {buf : ℕ} (h : f buf = p.format buf) (esp : ℕ) :
    ({ p with format := f } : PrintfCall).convert alternate buf esp = p.convert alternate buf esp := by
  simp only [convert, h]

theorem skipHash_congr {fuel buf : ℕ} (h : ∀ i ∈ p.skipReads fuel buf, f i = p.format i) (alternate : Bool) :
    ({ p with format := f } : PrintfCall).skipHash fuel alternate buf = p.skipHash fuel alternate buf := by
  induction fuel generalizing buf alternate with
  | zero => rfl
  | succ fuel ih =>
    have hbuf : f buf = p.format buf := h buf (by rw [skipReads]; exact List.mem_cons_self)
    rw [skipHash, skipHash]
    show (if f buf = 0x23 then _ else _) = _
    rw [hbuf]
    by_cases hhash : p.format buf = 0x23
    · rw [if_pos hhash, if_pos hhash]
      refine ih (fun i hi => h i ?_) true
      rw [skipReads, if_pos hhash]
      exact List.mem_cons_of_mem _ hi
    · rw [if_neg hhash, if_neg hhash]

/-- The switch stops at a byte that it has looked at. -/
theorem mem_skipReads {fuel buf c : ℕ} {alternate alternate' : Bool}
    (h : p.skipHash fuel alternate buf = some (alternate', c)) : c ∈ p.skipReads fuel buf := by
  induction fuel generalizing buf alternate with
  | zero => cases h
  | succ fuel ih =>
    rw [skipHash] at h
    rw [skipReads]
    split at h
    · rename_i hhash
      rw [if_pos hhash]
      exact List.mem_cons_of_mem _ (ih h)
    · cases h
      exact List.mem_cons_self

/-- **Nothing but the bytes that the loop looks at decides what it does.** -/
theorem printfFrom_congr {fuel buf esp : ℕ} (h : ∀ i ∈ p.formatReads fuel buf esp, f i = p.format i) :
    ({ p with format := f } : PrintfCall).printfFrom fuel buf esp = p.printfFrom fuel buf esp := by
  induction fuel generalizing buf esp with
  | zero => rfl
  | succ fuel ih =>
    rw [formatReads] at h
    have hbuf : f buf = p.format buf := h buf List.mem_cons_self
    rw [printfFrom, printfFrom]
    show (if f buf = 0 then _ else if f buf = 0x25 then _ else _) = _
    rw [hbuf]
    by_cases hend : p.format buf = 0
    · rw [if_pos hend, if_pos hend]
    rw [if_neg hend] at h
    rw [if_neg hend, if_neg hend]
    by_cases hpercent : p.format buf = 0x25
    · rw [if_pos hpercent] at h
      rw [if_pos hpercent, if_pos hpercent,
        p.skipHash_congr fun i hi => h i (List.mem_cons_of_mem _ (List.mem_append_left _ hi))]
      cases hskip : p.skipHash (2 ^ 32) false (buf + 1) with
      | none => rfl
      | some r =>
        obtain ⟨alternate, c⟩ := r
        have hc : f c = p.format c :=
          h c (List.mem_cons_of_mem _ (List.mem_append_left _ (p.mem_skipReads hskip)))
        rw [Option.bind_some, Option.bind_some]
        dsimp only
        rw [p.convert_congr hc]
        cases hconvert : p.convert alternate c esp with
        | none => rfl
        | some r =>
          obtain ⟨printed, used⟩ := r
          rw [Option.bind_some, Option.bind_some]
          dsimp only
          rw [ih fun i hi => h i (List.mem_cons_of_mem _ (List.mem_append_right _ ?_))]
          rw [hskip, Option.bind_some, hconvert]
          exact hi
    · rw [if_neg hpercent] at h
      rw [if_neg hpercent, if_neg hpercent, ih fun i hi => h i (List.mem_cons_of_mem _ hi), ← hbuf]

/-! ### Where `printf` stops -/

/-- `printf` stops at the NUL of the format `s`.  It looks at no byte behind it, and it prints the directives from left
to right; one that the format breaks off in prints nothing. -/
structure StopsAtNul (s : List UInt8) : Prop where
  inside : ∀ fuel, ∀ i ∈ p.formatReads fuel 0 0, i ≤ s.length
  prints : ∃ (ds : List Directive) (tail : List UInt8), s = ds.flatMap Directive.text ++ tail ∧
    (tail = [] ∨ IsCut tail) ∧ p.printf = some (p.output ds 0, s.length)

/-- What stands behind the NUL makes no difference then. -/
theorem StopsAtNul.printf_congr {p : PrintfCall} {s : List UInt8} (h : p.StopsAtNul s)
    (hsame : ∀ i ≤ s.length, f i = p.format i) : ({ p with format := f } : PrintfCall).printf = p.printf :=
  p.printfFrom_congr fun i hi => hsame i (h.inside _ i hi)

end PrintfCall

/-- **Where `printf` stops.**  It keeps to the format and prints its directives just if the format does not break off
inside one; and if the strings that it is to print have an end, for otherwise it does not come back. -/
theorem printf_stops_iff (p : PrintfCall) {s : List UInt8} (hformat : Spells p.format s) (hlen : s.length < 2 ^ 32)
    (hargs : ∀ i, p.args i < 2 ^ 32) :
    p.StopsAtNul s ↔ ∃ ds : List Directive, s = ds.flatMap Directive.text ∧ p.StringsEnd ds 0 := by
  have hspells := hformat.spellsAt
  have hsize : (s ++ [0]).length ≤ 2 ^ 32 := by
    rw [List.length_append, List.length_singleton]
    omega
  constructor
  · intro h
    obtain ⟨ds, tail, rfl, htail, hprintf⟩ := h.prints
    rw [List.append_assoc] at hspells hsize
    have hends : p.StringsEnd ds 0 := by
      by_contra hforever
      rw [PrintfCall.printf, p.printfFrom_of_not_stringsEnd hargs hspells hsize hforever] at hprintf
      cases hprintf
    rcases htail with rfl | hcut
    · exact ⟨ds, List.append_nil _, hends⟩
    · -- the byte behind the NUL is looked at
      obtain ⟨fuel, hmem⟩ := p.exists_formatReads_behind hargs hcut hspells hsize hends
      have hbound := h.inside fuel _ hmem
      omega
  · rintro ⟨ds, rfl, hends⟩
    have hfuel : ds.length < 2 ^ 32 := Nat.lt_of_le_of_lt (length_le_texts ds) hlen
    have hreads := p.formatReads_le hargs hspells hsize hends
    have hprintf := p.printfFrom_directives hargs hspells hsize hends hfuel
    rw [Nat.zero_add] at hprintf
    simp only [Nat.zero_add] at hreads
    exact ⟨hreads, ds, [], (List.append_nil _).symm, Or.inl rfl, hprintf⟩

/-- `printf("%s=%#x%%", "pid", 42)`. -/
def pidCall : PrintfCall where
  format := literal (ascii "%s=%#x%%".toList)
  args := fun i => if i = 0 then 0x1000 else 42
  deref := fun _ => literal (ascii "pid".toList)
  junk := fun _ _ => 0xAA

theorem printf_stops_pid : Spells pidCall.format (ascii "%s=%#x%%".toList) ∧
    pidCall.StopsAtNul (ascii "%s=%#x%%".toList) ∧ pidCall.printf = some (ascii "pid=0000002A%".toList, 8) := by
  have hspells : Spells pidCall.format (ascii "%s=%#x%%".toList) := Spells.literal (by decide)
  have hargs : ∀ i, pidCall.args i < 2 ^ 32 := by
    intro i
    show (if i = 0 then 0x1000 else 42) < 2 ^ 32
    split <;> decide
  refine ⟨hspells, (printf_stops_iff pidCall hspells (by decide) hargs).mpr ?_, by decide +kernel⟩
  refine ⟨[.conversion 0 0x73 (by decide), .plain 0x3D (by decide), .conversion 1 0x78 (by decide),
    .conversion 0 0x25 (by decide)], by decide, ?_⟩
  exact ⟨fun _ => ⟨3, by decide, by decide⟩, trivial, fun h => absurd h (by decide), fun h => absurd h (by decide),
    trivial⟩

/-- `printf("50%")`, with the bytes of another string behind the NUL. -/
def percentCall : PrintfCall where
  format := literal (ascii "50%".toList ++ 0 :: ascii "ab".toList)
  args := fun _ => 0
  deref := fun _ _ => 0
  junk := fun _ _ => 0

/-- **Over the NUL**: the other string is printed too. -/
theorem printf_steps_over_nul : Spells percentCall.format (ascii "50%".toList) ∧
    4 ∈ percentCall.formatReads (2 ^ 32) 0 0 ∧ percentCall.printf = some (ascii "50ab".toList, 6) ∧
    ¬percentCall.StopsAtNul (ascii "50%".toList) := by
  have hspells : Spells percentCall.format (ascii "50%".toList) := ⟨by decide, by decide⟩
  have hread : 4 ∈ percentCall.formatReads (2 ^ 32) 0 0 := by decide +kernel
  refine ⟨hspells, hread, by decide +kernel, fun h => ?_⟩
  exact absurd (h.inside _ 4 hread) (by decide)

end ClosKernel
