import UbgoLogger.Core.Field
import Mathlib.Logic.Function.Basic

namespace UbgoLogger
open Foundation.Text

structure Header (γ : Type) where
  time : Time
  level : Level
  message : Bytes
  pc : UInt64
  eventName : Bytes
  ctx : Option γ

-- A slice of fields: its backing array and its length; the capacity is the length of the array.
structure Slice where
  arr : Nat
  len : Nat

structure Object (γ : Type) where
  header : Header γ
  fields : Slice
  pooled : Bool

structure Heap (χ γ : Type) where
  object : Nat → Object γ
  objects : Nat
  array : Nat → List (Field χ)
  arrays : Nat
  pool : List Nat

def Header.zero {γ : Type} : Header γ where
  time := Time.zero
  level := 0
  message := []
  pc := 0
  eventName := []
  ctx := none

def Object.zero {γ : Type} : Object γ := ⟨.zero, ⟨0, 0⟩, false⟩

namespace Heap

variable {χ γ : Type}

-- Array 0 has no room: it stands for the nil slice.
def empty : Heap χ γ := ⟨fun _ => .zero, 0, fun _ => [], 1, []⟩

def slice (h : Heap χ γ) (s : Slice) : List (Field χ) := (h.array s.arr).take s.len

def read (h : Heap χ γ) (a : Nat) : Record χ (Option γ) where
  time := (h.object a).header.time
  level := (h.object a).header.level
  message := (h.object a).header.message
  pc := (h.object a).header.pc
  eventName := (h.object a).header.eventName
  fields := h.slice (h.object a).fields
  ctx := (h.object a).header.ctx

def setObject (h : Heap χ γ) (a : Nat) (o : Object γ) : Heap χ γ :=
  { h with object := Function.update h.object a o }

def setArray (h : Heap χ γ) (r : Nat) (fs : List (Field χ)) : Heap χ γ :=
  { h with array := Function.update h.array r fs }

def newRecord (h : Heap χ γ) (pick : Option Nat) : Heap χ γ :=
  match pick.bind (h.pool[·]?) with
  | some a =>
      { h.setObject a { h.object a with pooled := true } with pool := h.pool.erase a }
  | none =>
      { h.setObject h.objects { Object.zero with pooled := true } with objects := h.objects + 1 }

def setHeader (h : Heap χ γ) (a : Nat) (header : Header γ) : Heap χ γ :=
  h.setObject a { h.object a with header := header }

def addField (h : Heap χ γ) (a : Nat) (f : Field χ) (slack : List (Field χ)) : Heap χ γ :=
  let o := h.object a
  let fs := h.array o.fields.arr
  if o.fields.len < fs.length then
    (h.setArray o.fields.arr (fs.set o.fields.len f)).setObject a
      { o with fields := ⟨o.fields.arr, o.fields.len + 1⟩ }
  else
    { (h.setArray h.arrays (fs.take o.fields.len ++ f :: slack)).setObject a
        { o with fields := ⟨h.arrays, o.fields.len + 1⟩ } with arrays := h.arrays + 1 }

def write (h : Heap χ γ) (a : Nat) (i : Nat) (f : Field χ) : Heap χ γ :=
  let r := (h.object a).fields.arr
  h.setArray r ((h.array r).set i f)

def reslice (h : Heap χ γ) (a : Nat) (n : Nat) : Heap χ γ :=
  h.setObject a { h.object a with fields := ⟨(h.object a).fields.arr, n⟩ }

def reset (h : Heap χ γ) (a : Nat) : Heap χ γ :=
  h.setObject a { h.object a with header := .zero, fields := ⟨(h.object a).fields.arr, 0⟩ }

def release (h : Heap χ γ) (a : Nat) : Heap χ γ :=
  if (h.object a).pooled then { h.reset a with pool := a :: h.pool } else h

def clone (h : Heap χ γ) (a : Nat) : Heap χ γ × Nat :=
  let o := h.object a
  ({ (h.setArray h.arrays (h.slice o.fields)).setObject h.objects
      ⟨o.header, ⟨h.arrays, o.fields.len⟩, false⟩ with
      objects := h.objects + 1, arrays := h.arrays + 1 }, h.objects)

end Heap

inductive ClientOp (χ γ : Type) where
  | newRecord (pick : Option Nat)
  | setHeader (a : Nat) (header : Header γ)
  | addField (a : Nat) (f : Field χ) (slack : List (Field χ))
  | write (a : Nat) (i : Nat) (f : Field χ)
  | reslice (a : Nat) (n : Nat)
  | release (a : Nat)

namespace ClientOp

variable {χ γ : Type}

def target : ClientOp χ γ → Option Nat
  | .newRecord _ => none
  | .setHeader a _ => some a
  | .addField a _ _ => some a
  | .write a _ _ => some a
  | .reslice a _ => some a
  | .release a => some a

def apply (h : Heap χ γ) : ClientOp χ γ → Heap χ γ
  | .newRecord pick => h.newRecord pick
  | .setHeader a header => h.setHeader a header
  | .addField a f slack => h.addField a f slack
  | .write a i f => h.write a i f
  | .reslice a n => h.reslice a n
  | .release a => h.release a

end ClientOp

section Separation

variable {χ γ : Type} {h h' : Heap χ γ} {clones : List Nat} {a b : Nat}

structure Separate (h : Heap χ γ) (clones : List Nat) : Prop where
  fresh : ∀ a, (h.object a).fields.arr < h.arrays
  owned : ∀ a ∈ clones, a < h.objects
  backed : ∀ a ∈ clones, (h.object a).fields.arr ≠ 0
  apart : ∀ a ∈ clones, ∀ b, b ∉ clones → (h.object a).fields.arr ≠ (h.object b).fields.arr
  unpooled : ∀ a ∈ clones, (h.object a).pooled = false
  pool : ∀ a ∈ h.pool, a < h.objects ∧ a ∉ clones

structure Keeps (h h' : Heap χ γ) (clones : List Nat) : Prop where
  object : ∀ a ∈ clones, h'.object a = h.object a
  array : ∀ a ∈ clones, h'.array (h.object a).fields.arr = h.array (h.object a).fields.arr

structure Changes (h h' : Heap χ γ) (clones : List Nat) (b : Nat) : Prop where
  object : ∀ a, a ≠ b → h'.object a = h.object a
  array : ∀ r, r ≠ (h.object b).fields.arr → r ≠ h.arrays → h'.array r = h.array r
  alien : ∀ a ∈ clones, (h.object a).fields.arr ≠ (h'.object b).fields.arr
  fresh : (h'.object b).fields.arr < h'.arrays
  arrays : h.arrays ≤ h'.arrays
  objects : h.objects ≤ h'.objects
  allocated : b < h'.objects
  pool : ∀ a ∈ h'.pool, a = b ∨ a ∈ h.pool

theorem Keeps.read_eq (hk : Keeps h h' clones) (ha : a ∈ clones) : h'.read a = h.read a := by
  simp only [Heap.read, Heap.slice, hk.object a ha, hk.array a ha]

theorem Separate.keeps (hs : Separate h clones) (hb : b ∉ clones) (hc : Changes h h' clones b) :
    Keeps h h' clones where
  object := fun a ha => hc.object a (ne_of_mem_of_not_mem ha hb)
  array := fun a ha => hc.array _ (hs.apart a ha b hb) (hs.fresh a).ne

theorem Separate.change (hs : Separate h clones) (hb : b ∉ clones) (hc : Changes h h' clones b) :
    Separate h' clones := by
  have hobject := (hs.keeps hb hc).object
  refine ⟨fun a => ?_, fun a ha => ?_, fun a ha => ?_, fun a ha c hcl => ?_, fun a ha => ?_,
    fun a ha => ?_⟩
  · rcases eq_or_ne a b with rfl | hne
    · exact hc.fresh
    · rw [hc.object a hne]
      exact lt_of_lt_of_le (hs.fresh a) hc.arrays
  · exact lt_of_lt_of_le (hs.owned a ha) hc.objects
  · rw [hobject a ha]
    exact hs.backed a ha
  · rw [hobject a ha]
    rcases eq_or_ne c b with rfl | hne
    · exact hc.alien a ha
    · rw [hc.object c hne]
      exact hs.apart a ha c hcl
  · rw [hobject a ha]
    exact hs.unpooled a ha
  · rcases hc.pool a ha with rfl | hold
    · exact ⟨hc.allocated, hb⟩
    · exact (hs.pool a hold).imp_left fun hlt => lt_of_lt_of_le hlt hc.objects

theorem changes_setObject (hs : Separate h clones) (hb : b < h.objects ∧ b ∉ clones) (o : Object γ)
    (ho : o.fields.arr = (h.object b).fields.arr) : Changes h (h.setObject b o) clones b where
  object := fun a ha => Function.update_of_ne ha _ _
  array := fun _ _ _ => rfl
  alien := fun a ha => by
    simp only [Heap.setObject, Function.update_self, ho]
    exact hs.apart a ha b hb.2
  fresh := by
    simp only [Heap.setObject, Function.update_self, ho]
    exact hs.fresh b
  arrays := le_refl _
  objects := le_refl _
  allocated := hb.1
  pool := fun _ ha => .inr ha

theorem changes_addField (hs : Separate h clones) (hb : b < h.objects ∧ b ∉ clones) (f : Field χ)
    (slack : List (Field χ)) : Changes h (h.addField b f slack) clones b := by
  rw [Heap.addField]
  split
  · refine ⟨fun a ha => Function.update_of_ne ha _ _, fun r hr _ => Function.update_of_ne hr _ _,
      fun a ha => ?_, ?_, le_refl _, le_refl _, hb.1, fun _ ha => .inr ha⟩
    · simp only [Heap.setObject, Function.update_self]
      exact hs.apart a ha b hb.2
    · simp only [Heap.setObject, Function.update_self]
      exact hs.fresh b
  · refine ⟨fun a ha => Function.update_of_ne ha _ _, fun r _ hr => Function.update_of_ne hr _ _,
      fun a ha => ?_, ?_, Nat.le_succ _, le_refl _, hb.1, fun _ ha => .inr ha⟩
    · simp only [Heap.setObject, Function.update_self]
      exact (hs.fresh a).ne
    · simp only [Heap.setObject, Function.update_self]
      exact Nat.lt_succ_self _

theorem changes_write (hs : Separate h clones) (hb : b < h.objects ∧ b ∉ clones) (i : Nat)
    (f : Field χ) : Changes h (h.write b i f) clones b where
  object := fun _ _ => rfl
  array := fun _ hr _ => Function.update_of_ne hr _ _
  alien := fun a ha => hs.apart a ha b hb.2
  fresh := hs.fresh b
  arrays := le_refl _
  objects := le_refl _
  allocated := hb.1
  pool := fun _ ha => .inr ha

theorem changes_release (hs : Separate h clones) (hb : b < h.objects ∧ b ∉ clones) :
    Changes h (h.release b) clones b := by
  rw [Heap.release]
  split
  · have hc := changes_setObject hs hb
      { h.object b with header := .zero, fields := ⟨(h.object b).fields.arr, 0⟩ } rfl
    exact { hc with pool := fun a ha => List.mem_cons.mp ha }
  · exact ⟨fun _ _ => rfl, fun _ _ _ => rfl, fun a ha => hs.apart a ha b hb.2, hs.fresh b,
      le_refl _, le_refl _, hb.1, fun _ ha => .inr ha⟩

theorem changes_newRecord (hs : Separate h clones) (pick : Option Nat) :
    ∃ b, b ∉ clones ∧ Changes h (h.newRecord pick) clones b := by
  rw [Heap.newRecord]
  split
  next a ha =>
    obtain ⟨i, -, hi⟩ := Option.bind_eq_some_iff.mp ha
    have hb := hs.pool a (List.mem_of_getElem? hi)
    have hc := changes_setObject hs hb { h.object a with pooled := true } rfl
    exact ⟨a, hb.2, { hc with pool := fun c hmem => .inr (List.mem_of_mem_erase hmem) }⟩
  next =>
    refine ⟨h.objects, fun hmem => lt_irrefl _ (hs.owned _ hmem), fun a ha =>
      Function.update_of_ne ha _ _, fun _ _ _ => rfl, fun a ha => ?_, ?_, le_refl _, Nat.le_succ _,
      Nat.lt_succ_self _, fun _ ha => .inr ha⟩
    · simp only [Heap.setObject, Function.update_self]
      exact hs.backed a ha
    · simp only [Heap.setObject, Function.update_self]
      exact lt_of_le_of_lt (Nat.zero_le _) (hs.fresh h.objects)

theorem ClientOp.changes (hs : Separate h clones) (op : ClientOp χ γ)
    (hop : ∀ a, op.target = some a → a < h.objects ∧ a ∉ clones) :
    ∃ b, b ∉ clones ∧ Changes h (op.apply h) clones b := by
  cases op with
  | newRecord pick => exact changes_newRecord hs pick
  | setHeader a header => exact ⟨a, (hop a rfl).2, changes_setObject hs (hop a rfl) _ rfl⟩
  | addField a f slack => exact ⟨a, (hop a rfl).2, changes_addField hs (hop a rfl) f slack⟩
  | write a i f => exact ⟨a, (hop a rfl).2, changes_write hs (hop a rfl) i f⟩
  | reslice a n => exact ⟨a, (hop a rfl).2, changes_setObject hs (hop a rfl) _ rfl⟩
  | release a => exact ⟨a, (hop a rfl).2, changes_release hs (hop a rfl)⟩

theorem release_clone (hs : Separate h clones) (ha : a ∈ clones) : h.release a = h := by
  rw [Heap.release, hs.unpooled a ha]
  rfl

theorem separate_empty : Separate (Heap.empty : Heap χ γ) [] where
  fresh := fun _ => Nat.zero_lt_one
  owned := nofun
  backed := nofun
  apart := nofun
  unpooled := nofun
  pool := nofun

theorem keeps_clone (hs : Separate h clones) (a : Nat) : Keeps h (h.clone a).1 clones where
  object := fun c hc => Function.update_of_ne (hs.owned c hc).ne _ _
  array := fun c _ => Function.update_of_ne (hs.fresh c).ne _ _

theorem read_clone (h : Heap χ γ) (a : Nat) : (h.clone a).1.read (h.clone a).2 = h.read a := by
  simp [Heap.clone, Heap.read, Heap.slice, Heap.setObject, Heap.setArray, List.take_take]

theorem Separate.clone (hs : Separate h clones) (a : Nat) :
    Separate (h.clone a).1 ((h.clone a).2 :: clones) := by
  have hobject : ∀ c, c ≠ h.objects → (h.clone a).1.object c = h.object c := fun c hc =>
    Function.update_of_ne hc _ _
  have hnew : (h.clone a).1.object h.objects =
      ⟨(h.object a).header, ⟨h.arrays, (h.object a).fields.len⟩, false⟩ := Function.update_self ..
  have hold : ∀ c ∈ clones, (h.clone a).1.object c = h.object c := (keeps_clone hs a).object
  have hpos : 0 < h.arrays := lt_of_le_of_lt (Nat.zero_le _) (hs.fresh 0)
  refine ⟨fun c => ?_, fun c hc => ?_, fun c hc => ?_, fun c hc d hd => ?_, fun c hc => ?_,
    fun c hc => ?_⟩
  · change ((h.clone a).1.object c).fields.arr < h.arrays + 1
    rcases eq_or_ne c h.objects with rfl | hne
    · rw [hnew]
      exact Nat.lt_succ_self _
    · rw [hobject c hne]
      exact Nat.lt_succ_of_lt (hs.fresh c)
  · change c < h.objects + 1
    rcases List.mem_cons.mp hc with rfl | hmem
    · exact Nat.lt_succ_self _
    · exact Nat.lt_succ_of_lt (hs.owned c hmem)
  · rcases List.mem_cons.mp hc with rfl | hmem
    · rw [show (h.clone a).2 = h.objects from rfl, hnew]
      exact hpos.ne'
    · rw [hold c hmem]
      exact hs.backed c hmem
  · have hd' : d ≠ h.objects ∧ d ∉ clones := not_or.mp (mt List.mem_cons.mpr hd)
    rw [hobject d hd'.1]
    rcases List.mem_cons.mp hc with rfl | hmem
    · rw [show (h.clone a).2 = h.objects from rfl, hnew]
      exact (hs.fresh d).ne'
    · rw [hold c hmem]
      exact hs.apart c hmem d hd'.2
  · rcases List.mem_cons.mp hc with rfl | hmem
    · rw [show (h.clone a).2 = h.objects from rfl, hnew]
    · rw [hold c hmem]
      exact hs.unpooled c hmem
  · obtain ⟨hlt, hmem⟩ := hs.pool c hc
    exact ⟨Nat.lt_succ_of_lt hlt, mt List.mem_cons.mp (not_or.mpr ⟨hlt.ne, hmem⟩)⟩

end Separation

end UbgoLogger
