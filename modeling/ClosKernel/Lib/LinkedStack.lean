import Mathlib.Data.List.Basic
import Mathlib.Logic.Function.Basic

/-!
# Stacks threaded through nodes by two link fields

A stack of nodes is stored in the nodes themselves: `up a` names the node below the top-most caller and
`down a` the node stacked on `a`.  The links live in a type `β` that also has a value for "no node"
(`enc none`), as a machine integer does with `-1`.  For arbitrary nodes and link types:

* `Linked up down enc x l` — the list `l` (top first) is threaded, and its top points down to `x`;
* `Linked.congr` — the frame rule: only the links of the members matter;
* `linked_singleton`, `Linked.push`, `Linked.pop` — the three ways a stack changes;
* `Linked.up_cases`, `Linked.down_cases` — links inside a stack are mutual;
* `Linked.up_eq_none_iff`, `Linked.down_eq_none_iff` — there is one root and one top;
* `StackTable` — a family of stacks that share no node, with `push` and `pop`, and `Threaded`, which says that
  all of them are threaded; `Threaded.start`, `Threaded.push`, `Threaded.pop` are its step rules.
-/

namespace LinkedStack

variable {α β : Type*} {up down up' down' : α → β} {enc : Option α → β} {x : Option α} {a b : α}
  {l : List α}

/-- The stack `l`, top first, is threaded by `up` and `down`, its top pointing down to `x`. -/
def Linked (up down : α → β) (enc : Option α → β) : Option α → List α → Prop
  | _, [] => True
  | x, a :: l => down a = enc x ∧ up a = enc l.head? ∧ Linked up down enc (some a) l

/-- **Frame rule.**  Threading depends on the links of the members only. -/
theorem Linked.congr (h : Linked up down enc x l)
    (hlinks : ∀ a ∈ l, up' a = up a ∧ down' a = down a) : Linked up' down' enc x l := by
  induction l generalizing x with
  | nil => trivial
  | cons a l ih =>
    obtain ⟨hdown, hup, hrest⟩ := h
    obtain ⟨hup', hdown'⟩ := hlinks a List.mem_cons_self
    refine ⟨hdown'.trans hdown, hup'.trans hup, ih hrest ?_⟩
    exact fun c hc => hlinks c (List.mem_cons_of_mem a hc)

theorem linked_singleton (hdown : down a = enc none) (hup : up a = enc none) :
    Linked up down enc none [a] :=
  ⟨hdown, hup, trivial⟩

/-- A new top `b` is linked to the old top `a`; nothing else changes. -/
theorem Linked.push (h : Linked up down enc none (a :: l)) (hdownb : down' b = enc none)
    (hupb : up' b = enc (some a)) (hdowna : down' a = enc (some b)) (hupa : up' a = up a)
    (hrest : ∀ c ∈ l, up' c = up c ∧ down' c = down c) :
    Linked up' down' enc none (b :: a :: l) := by
  obtain ⟨_, hup, hl⟩ := h
  exact ⟨hdownb, hupb, hdowna, hupa.trans hup, hl.congr hrest⟩

/-- The top `b` is dropped and its caller `a` becomes the top again. -/
theorem Linked.pop (h : Linked up down enc none (b :: a :: l)) (hdowna : down' a = enc none)
    (hupa : up' a = up a) (hrest : ∀ c ∈ l, up' c = up c ∧ down' c = down c) :
    Linked up' down' enc none (a :: l) := by
  obtain ⟨_, _, _, hup, hl⟩ := h
  exact ⟨hdowna, hupa.trans hup, hl.congr hrest⟩

/-! ### Links inside a stack -/

/-- A member is the root, or its caller is a member that points back. -/
theorem Linked.up_cases (h : Linked up down enc x l) (ha : a ∈ l) :
    up a = enc none ∨ ∃ b ∈ l, up a = enc (some b) ∧ down b = enc (some a) := by
  induction l generalizing x with
  | nil => simp at ha
  | cons c l ih =>
    obtain ⟨_, hup, hl⟩ := h
    rcases List.mem_cons.mp ha with rfl | ha
    · cases l with
      | nil => exact Or.inl hup
      | cons b l => exact Or.inr ⟨b, by simp, hup, hl.1⟩
    · rcases ih hl ha with hroot | ⟨b, hb, hab, hba⟩
      · exact Or.inl hroot
      · exact Or.inr ⟨b, List.mem_cons_of_mem c hb, hab, hba⟩

/-- A member points down to `x`, or to a member whose caller it is. -/
theorem Linked.down_cases (h : Linked up down enc x l) (ha : a ∈ l) :
    (l.head? = some a ∧ down a = enc x) ∨
      ∃ b ∈ l, down a = enc (some b) ∧ up b = enc (some a) := by
  induction l generalizing x with
  | nil => simp at ha
  | cons c l ih =>
    obtain ⟨hdown, hup, hl⟩ := h
    rcases List.mem_cons.mp ha with rfl | ha
    · exact Or.inl ⟨rfl, hdown⟩
    · rcases ih hl ha with ⟨htop, hdowna⟩ | ⟨b, hb, hab, hba⟩
      · exact Or.inr ⟨c, List.mem_cons_self, hdowna, hup.trans (by rw [htop])⟩
      · exact Or.inr ⟨b, List.mem_cons_of_mem c hb, hab, hba⟩

/-- Neighbours in the list are linked to each other. -/
theorem Linked.isChain (h : Linked up down enc x l) :
    l.IsChain fun c p => up c = enc (some p) ∧ down p = enc (some c) := by
  induction l generalizing x with
  | nil => exact List.IsChain.nil
  | cons a l ih =>
    cases l with
    | nil => exact List.IsChain.singleton a
    | cons b l => exact List.IsChain.cons_cons ⟨h.2.1, h.2.2.1⟩ (ih h.2.2)

/-! ### One root and one top -/

variable (henc : Function.Injective enc)
include henc

theorem Linked.down_ne_none (h : Linked up down enc (some b) l) (ha : a ∈ l) :
    down a ≠ enc none := by
  rcases h.down_cases ha with ⟨_, hdown⟩ | ⟨c, _, hdown, _⟩ <;>
    exact fun hnone => by simpa using henc (hdown.symm.trans hnone)

/-- The only member that points down to no node is the top. -/
theorem Linked.down_eq_none_iff (h : Linked up down enc none l) (ha : a ∈ l) :
    down a = enc none ↔ l.head? = some a := by
  cases l with
  | nil => simp at ha
  | cons c l =>
    constructor
    · intro hnone
      rcases List.mem_cons.mp ha with rfl | ha
      · rfl
      · exact absurd hnone (h.2.2.down_ne_none henc ha)
    · intro htop
      rw [List.head?_cons, Option.some_inj] at htop
      exact htop ▸ h.1

/-- The only member without a caller is the bottom of the stack. -/
theorem Linked.up_eq_none_iff (h : Linked up down enc x l) (ha : a ∈ l) :
    up a = enc none ↔ l.getLast? = some a := by
  induction l generalizing x with
  | nil => simp at ha
  | cons c l ih =>
    obtain ⟨hdown, hup, hl⟩ := h
    cases l with
    | nil =>
      rw [List.mem_singleton.mp ha]
      simpa using hup
    | cons d l =>
      rw [List.getLast?_cons_cons]
      rcases List.mem_cons.mp ha with rfl | ha
      · -- the top has a caller `d`; were it also the last member, its own links would clash
        have hne : up a ≠ enc none := fun hnone => by simpa using henc (hup.symm.trans hnone)
        refine ⟨fun hnone => absurd hnone hne, fun hlast => absurd ?_ hne⟩
        exact (ih hl (List.mem_of_getLast? hlast)).mpr hlast
      · exact ih hl ha

omit henc

/-! ### Families of stacks -/

/-- A family of stacks, top first, that share no node. -/
structure StackTable (τ α : Type*) where
  stack : τ → List α
  nodup : ∀ t, (stack t).Nodup
  apart : ∀ {t u a}, a ∈ stack t → a ∈ stack u → t = u

namespace StackTable

variable {τ : Type*} {S : StackTable τ α} {t u : τ}

/-- The node `a` is on some stack. -/
def Holds (S : StackTable τ α) (a : α) : Prop := ∃ t, a ∈ S.stack t

/-- Every stack of the family is threaded. -/
def Threaded (S : StackTable τ α) (up down : α → β) (enc : Option α → β) : Prop :=
  ∀ t, Linked up down enc none (S.stack t)

variable [DecidableEq τ]

/-- Put a node that is on no stack on top of stack `t`. -/
def push (S : StackTable τ α) (t : τ) (a : α) (ha : ¬S.Holds a) : StackTable τ α where
  stack := Function.update S.stack t (a :: S.stack t)
  nodup u := by
    by_cases hu : u = t
    · subst hu
      rw [Function.update_self]
      exact List.nodup_cons.mpr ⟨fun h => ha ⟨u, h⟩, S.nodup u⟩
    · rw [Function.update_of_ne hu]
      exact S.nodup u
  apart {u v b} hu hv := by
    have hcases : ∀ w, b ∈ Function.update S.stack t (a :: S.stack t) w →
        (b = a ∧ w = t) ∨ b ∈ S.stack w := by
      intro w hw
      by_cases hwt : w = t
      · subst hwt
        rw [Function.update_self] at hw
        exact (List.mem_cons.mp hw).imp (fun h => ⟨h, rfl⟩) id
      · rw [Function.update_of_ne hwt] at hw
        exact Or.inr hw
    rcases hcases u hu with ⟨rfl, rfl⟩ | hu'
    · rcases hcases v hv with ⟨_, rfl⟩ | hv'
      · rfl
      · exact absurd ⟨v, hv'⟩ ha
    · rcases hcases v hv with ⟨rfl, _⟩ | hv'
      · exact absurd ⟨u, hu'⟩ ha
      · exact S.apart hu' hv'

/-- Take the top off stack `t`. -/
def pop (S : StackTable τ α) (t : τ) : StackTable τ α where
  stack := Function.update S.stack t (S.stack t).tail
  nodup u := by
    by_cases hu : u = t
    · subst hu
      rw [Function.update_self]
      exact (S.nodup u).sublist (List.tail_sublist _)
    · rw [Function.update_of_ne hu]
      exact S.nodup u
  apart {u v b} hu hv := by
    have hsub : ∀ w, b ∈ Function.update S.stack t (S.stack t).tail w → b ∈ S.stack w := by
      intro w hw
      by_cases hwt : w = t
      · subst hwt
        rw [Function.update_self] at hw
        exact List.mem_of_mem_tail hw
      · rwa [Function.update_of_ne hwt] at hw
    exact S.apart (hsub u hu) (hsub v hv)

theorem push_stack (ha : ¬S.Holds a) :
    (S.push t a ha).stack = Function.update S.stack t (a :: S.stack t) := rfl

theorem push_stack_self (ha : ¬S.Holds a) : (S.push t a ha).stack t = a :: S.stack t :=
  Function.update_self ..

theorem pop_stack : (S.pop t).stack = Function.update S.stack t (S.stack t).tail := rfl

theorem mem_push (ha : ¬S.Holds a) :
    b ∈ (S.push t a ha).stack u ↔ (b = a ∧ u = t) ∨ b ∈ S.stack u := by
  rw [push_stack]
  by_cases hu : u = t
  · subst hu
    rw [Function.update_self, List.mem_cons]
    tauto
  · rw [Function.update_of_ne hu]
    tauto

theorem holds_push (ha : ¬S.Holds a) : (S.push t a ha).Holds b ↔ b = a ∨ S.Holds b := by
  constructor
  · rintro ⟨u, hu⟩
    exact ((mem_push ha).mp hu).imp And.left fun h => ⟨u, h⟩
  · rintro (rfl | ⟨u, hu⟩)
    · exact ⟨t, (mem_push ha).mpr (Or.inl ⟨rfl, rfl⟩)⟩
    · exact ⟨u, (mem_push ha).mpr (Or.inr hu)⟩

/-- Popping removes the top, which is on no other stack. -/
theorem mem_pop (htop : S.stack t = a :: l) :
    b ∈ (S.pop t).stack u ↔ b ∈ S.stack u ∧ b ≠ a := by
  have hnodup := S.nodup t
  rw [htop, List.nodup_cons] at hnodup
  have hmem : a ∈ S.stack t := htop ▸ List.mem_cons_self
  rw [pop_stack]
  by_cases hu : u = t
  · subst hu
    rw [Function.update_self, htop, List.tail_cons, List.mem_cons]
    refine ⟨fun hb => ⟨Or.inr hb, fun h => hnodup.1 (h ▸ hb)⟩, fun h => h.1.resolve_left h.2⟩
  · rw [Function.update_of_ne hu]
    exact ⟨fun hb => ⟨hb, fun h => hu (S.apart (h ▸ hb) hmem)⟩, And.left⟩

theorem holds_pop (htop : S.stack t = a :: l) : (S.pop t).Holds b ↔ S.Holds b ∧ b ≠ a := by
  constructor
  · rintro ⟨u, hu⟩
    obtain ⟨hb, hne⟩ := (mem_pop htop).mp hu
    exact ⟨⟨u, hb⟩, hne⟩
  · rintro ⟨⟨u, hu⟩, hne⟩
    exact ⟨u, (mem_pop htop).mpr ⟨hu, hne⟩⟩

/-- A node starts an empty stack; the links of the others stay. -/
theorem Threaded.start (h : S.Threaded up down enc) (ha : ¬S.Holds a) (hempty : S.stack t = [])
    (hdown : down' a = enc none) (hup : up' a = enc none)
    (hrest : ∀ c, S.Holds c → up' c = up c ∧ down' c = down c) :
    (S.push t a ha).Threaded up' down' enc := by
  intro u
  rw [push_stack]
  by_cases hu : u = t
  · rw [hu, Function.update_self, hempty]
    exact linked_singleton hdown hup
  · rw [Function.update_of_ne hu]
    exact (h u).congr fun c hc => hrest c ⟨u, hc⟩

/-- A node is stacked on the top `b` of a stack; the links of the others stay. -/
theorem Threaded.push (h : S.Threaded up down enc) (ha : ¬S.Holds a) (htop : S.stack t = b :: l)
    (hdown : down' a = enc none) (hup : up' a = enc (some b)) (hdownb : down' b = enc (some a))
    (hupb : up' b = up b) (hrest : ∀ c, S.Holds c → c ≠ b → up' c = up c ∧ down' c = down c) :
    (S.push t a ha).Threaded up' down' enc := by
  have hmem : b ∈ S.stack t := htop ▸ List.mem_cons_self
  have hnodup := S.nodup t
  rw [htop, List.nodup_cons] at hnodup
  intro u
  rw [push_stack]
  by_cases hu : u = t
  · rw [hu, Function.update_self, htop]
    refine (htop ▸ h t : Linked up down enc none (b :: l)).push hdown hup hdownb hupb fun c hc => ?_
    exact hrest c ⟨t, htop ▸ List.mem_cons_of_mem b hc⟩ fun hcb => hnodup.1 (hcb ▸ hc)
  · rw [Function.update_of_ne hu]
    exact (h u).congr fun c hc => hrest c ⟨u, hc⟩ fun hcb => hu (S.apart (hcb ▸ hc) hmem)

/-- The top of a stack is dropped and the node `b` below it becomes the top. -/
theorem Threaded.pop (h : S.Threaded up down enc) (htop : S.stack t = a :: b :: l)
    (hdownb : down' b = enc none) (hupb : up' b = up b)
    (hrest : ∀ c, S.Holds c → c ≠ a → c ≠ b → up' c = up c ∧ down' c = down c) :
    (S.pop t).Threaded up' down' enc := by
  have hmema : a ∈ S.stack t := htop ▸ List.mem_cons_self
  have hmemb : b ∈ S.stack t := htop ▸ List.mem_cons_of_mem a List.mem_cons_self
  have hnodup := S.nodup t
  rw [htop, List.nodup_cons, List.nodup_cons] at hnodup
  intro u
  rw [pop_stack]
  by_cases hu : u = t
  · rw [hu, Function.update_self, htop, List.tail_cons]
    refine (htop ▸ h t : Linked up down enc none (a :: b :: l)).pop hdownb hupb fun c hc => ?_
    refine hrest c ⟨t, htop ▸ List.mem_cons_of_mem a (List.mem_cons_of_mem b hc)⟩ ?_ ?_
    · exact fun hca => hnodup.1 (List.mem_cons_of_mem b (hca ▸ hc))
    · exact fun hcb => hnodup.2.1 (hcb ▸ hc)
  · rw [Function.update_of_ne hu]
    exact (h u).congr fun c hc => hrest c ⟨u, hc⟩ (fun hca => hu (S.apart (hca ▸ hc) hmema))
      fun hcb => hu (S.apart (hcb ▸ hc) hmemb)

/-- A stack of one node is emptied; the links of the others stay. -/
theorem Threaded.clear (h : S.Threaded up down enc) (htop : S.stack t = [a])
    (hrest : ∀ c, S.Holds c → c ≠ a → up' c = up c ∧ down' c = down c) :
    (S.pop t).Threaded up' down' enc := by
  have hmem : a ∈ S.stack t := htop ▸ List.mem_cons_self
  intro u
  rw [pop_stack]
  by_cases hu : u = t
  · rw [hu, Function.update_self, htop]
    trivial
  · rw [Function.update_of_ne hu]
    exact (h u).congr fun c hc => hrest c ⟨u, hc⟩ fun hca => hu (S.apart (hca ▸ hc) hmem)

end StackTable

end LinkedStack
