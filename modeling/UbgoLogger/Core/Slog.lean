import UbgoLogger.Core.Logger
import UbgoLogger.Foundation.Machine
import UbgoLogger.Foundation.Slices

namespace UbgoLogger

open Foundation Foundation.Text

def Time.unixNano (t : Time) : Int64 := Int64.ofInt (t.sec * 1000000000 + t.nsec)

section Constructors

variable {χ : Type}

-- Int at int64 and at uint64
def intField (key : Bytes) (v : Int64) : Field χ := ⟨key, .int64, v.toUInt64, [], .nil⟩

def uintField (key : Bytes) (v : UInt64) : Field χ := ⟨key, .uint64, v, [], .nil⟩

def floatField (key : Bytes) (bits : UInt64) : Field χ := ⟨key, .float64, bits, [], .nil⟩

def timeField (key : Bytes) (t : Time) : Field χ := ⟨key, .time, t.unixNano.toUInt64, [], .nil⟩

end Constructors

-- What an interface holds that a field or an attribute was boxed into.
inductive Boxed (χ : Type) where
  | string (s : Bytes)
  | int64 (v : Int64)
  | uint64 (v : UInt64)
  | float64 (bits : UInt64)
  | bool (v : Bool)
  | duration (d : Int64)
  | time (t : Time)
  | any (v : AnyVal χ)
  deriving DecidableEq

def Field.value {χ : Type} (localOffset : Int → Int) (f : Field χ) : Boxed χ :=
  match f.knd with
  | .string => .string f.str
  | .int64 => .int64 f.int64
  | .uint64 => .uint64 f.num
  | .float64 => .float64 f.num
  | .bool => .bool (f.num != 0)
  | .duration => .duration f.int64
  | .time => .time (f.time localOffset)
  | .error => .any (f.errVal.elim .nil .error)
  | .any => .any f.any

namespace Logger

variable {π χ υ : Type}

-- The record logAt hands to the pipeline, if the level passes.
def recordAt (l : Logger π χ υ) (ctx : Option (Context χ υ)) (t : Time) (level : Level)
    (msg : Bytes) (fields : List (Field χ)) : Option (Rec χ υ) :=
  if level < l.level then none
  else
    some
      { time := t
        level := level
        message := msg
        pc := 0
        eventName := []
        fields := l.withFields ++ fields
        ctx := some (ctx.getD Context.background) }

def logAt (l : Logger π χ υ) (st : π) (ctx : Option (Context χ υ)) (t : Time) (level : Level)
    (msg : Bytes) (fields : List (Field χ)) : π × Option (Rec χ υ) :=
  match l.recordAt ctx t level msg fields with
  | none => (st, none)
  | some r => runPipeline l.processors st (ctx.getD Context.background) r

end Logger

namespace Slog

-- slog.Value: a LogValuer stands with what Resolve makes of it.
mutual

inductive Value (χ : Type) where
  | boxed (v : Boxed χ)
  | group (attrs : List (Attr χ))
  | logValuer (v : Value χ)

inductive Attr (χ : Type) where
  | mk (key : Bytes) (value : Value χ)

end

structure Record (χ : Type) where
  time : Time
  level : Int
  message : Bytes
  attrs : List (Attr χ)

variable {χ δ : Type}

def Value.resolve : Value χ → Value χ
  | .logValuer v => v.resolve
  | v => v

def levelDebug : Int := -4

def levelInfo : Int := 0

def levelWarn : Int := 4

def levelError : Int := 8

def slogToLevel (sl : Int) : Level :=
  if sl < levelDebug then Level.trace
  else if sl < levelInfo then Level.debug
  else if sl < levelWarn then Level.info
  else if sl < levelError then Level.warn
  else Level.error

def leafField (key : Bytes) : Boxed χ → Field χ
  | .string s => stringField key s
  | .int64 v => intField key v
  | .uint64 v => uintField key v
  | .float64 bits => floatField key bits
  | .bool v => boolField key v
  | .duration d => durField key d
  | .time t => timeField key t
  | .any v => anyField key v

def isZero (key : Bytes) : Boxed χ → Bool
  | .any .nil => key.isEmpty
  | _ => false

-- The only use the source makes of its destination is to append one field to it: push.
mutual

def appendValue (push : δ → Field χ → δ) (dst : δ) (pfx key : Bytes) : Value χ → δ
  | .logValuer v => appendValue push dst pfx key v
  | .boxed v => if isZero key v then dst else push dst (leafField (pfx ++ key) v)
  | .group gs => appendAttrs push dst (if key.isEmpty then pfx else pfx ++ key ++ ascii ".") gs

def appendAttr (push : δ → Field χ → δ) (dst : δ) (pfx : Bytes) : Attr χ → δ
  | .mk key v => appendValue push dst pfx key v

def appendAttrs (push : δ → Field χ → δ) (dst : δ) (pfx : Bytes) : List (Attr χ) → δ
  | [] => dst
  | a :: as => appendAttrs push (appendAttr push dst pfx a) pfx as

end

theorem appendValue_resolve (push : δ → Field χ → δ) (dst : δ) (pfx key : Bytes) :
    ∀ v : Value χ, appendValue push dst pfx key v.resolve = appendValue push dst pfx key v
  | .logValuer v => appendValue_resolve push dst pfx key v
  | .boxed _ => rfl
  | .group _ => rfl

-- The fields an attribute appends, in order.
mutual

def flattenValue (pfx key : Bytes) : Value χ → List (Field χ)
  | .logValuer v => flattenValue pfx key v
  | .boxed v => if isZero key v then [] else [leafField (pfx ++ key) v]
  | .group gs => flattenAttrs (if key.isEmpty then pfx else pfx ++ key ++ ascii ".") gs

def flattenAttr (pfx : Bytes) : Attr χ → List (Field χ)
  | .mk key v => flattenValue pfx key v

def flattenAttrs (pfx : Bytes) : List (Attr χ) → List (Field χ)
  | [] => []
  | a :: as => flattenAttr pfx a ++ flattenAttrs pfx as

end

theorem flattenAttrs_append (pfx : Bytes) (as bs : List (Attr χ)) :
    flattenAttrs pfx (as ++ bs) = flattenAttrs pfx as ++ flattenAttrs pfx bs := by
  induction as with
  | nil => rfl
  | cons a as ih => rw [List.cons_append, flattenAttrs, flattenAttrs, ih, List.append_assoc]

mutual

theorem appendValue_eq_foldl (push : δ → Field χ → δ) (dst : δ) (pfx key : Bytes) :
    ∀ v : Value χ, appendValue push dst pfx key v = (flattenValue pfx key v).foldl push dst
  | .logValuer v => appendValue_eq_foldl push dst pfx key v
  | .boxed v => by
    simp only [appendValue, flattenValue]
    split <;> rfl
  | .group gs => appendAttrs_eq_foldl push dst _ gs

theorem appendAttr_eq_foldl (push : δ → Field χ → δ) (dst : δ) (pfx : Bytes) :
    ∀ a : Attr χ, appendAttr push dst pfx a = (flattenAttr pfx a).foldl push dst
  | .mk key v => appendValue_eq_foldl push dst pfx key v

theorem appendAttrs_eq_foldl (push : δ → Field χ → δ) (dst : δ) (pfx : Bytes) :
    ∀ as : List (Attr χ), appendAttrs push dst pfx as = (flattenAttrs pfx as).foldl push dst
  | [] => rfl
  | a :: as => by
    rw [appendAttrs, appendAttrs_eq_foldl push _ pfx as, appendAttr_eq_foldl push dst pfx a,
      flattenAttrs, List.foldl_append]

end

structure SlogHandler where
  groups : Slices.Slice
  pfx : Bytes
  preform : Slices.Slice

-- The arrays the handlers' slices lie in.
structure Memory (χ : Type) where
  strings : Slices.Store Bytes
  fields : Slices.Store (Field χ)

instance : Inhabited (Field χ) := ⟨⟨[], .any, 0, [], .nil⟩⟩

namespace SlogHandler

def clone (grow : Nat → Nat → Nat) (m : Memory χ) (h : SlogHandler) : Memory χ × SlogHandler :=
  let groups := m.strings.append grow Slices.Slice.nil (m.strings.view h.groups)
  let preform := m.fields.append grow Slices.Slice.nil (m.fields.view h.preform)
  (⟨groups.1, preform.1⟩, ⟨groups.2, h.pfx, preform.2⟩)

def withAttrs (grow : Nat → Nat → Nat) (m : Memory χ) (h : SlogHandler) (attrs : List (Attr χ)) :
    Memory χ × SlogHandler :=
  let (m, nh) := h.clone grow m
  let preform := appendAttrs (Slices.Store.push grow) (m.fields, nh.preform) nh.pfx attrs
  ({ m with fields := preform.1 }, { nh with preform := preform.2 })

def withGroup (grow : Nat → Nat → Nat) (m : Memory χ) (h : SlogHandler) (name : Bytes) :
    Memory χ × SlogHandler :=
  if name = [] then (m, h)
  else
    let (m, nh) := h.clone grow m
    let groups := m.strings.append grow nh.groups [name]
    ({ m with strings := groups.1 },
      { nh with groups := groups.2, pfx := h.pfx ++ name ++ ascii "." })

-- The fields Handle passes to logAt.
def fields (grow : Nat → Nat → Nat) (m : Memory χ) (h : SlogHandler) (attrs : List (Attr χ)) :
    Memory χ × List (Field χ) :=
  let made := m.fields.make (h.preform.len + attrs.length)
  let inherited := made.1.append grow made.2 (m.fields.view h.preform)
  let all := appendAttrs (Slices.Store.push grow) inherited h.pfx attrs
  ({ m with fields := all.1 }, all.1.view all.2)

end SlogHandler

-- The handler a sequence of calls leaves, with the arrays behind its slices forgotten.
structure View (χ : Type) where
  groups : List Bytes
  pfx : Bytes
  preform : List (Field χ)

inductive Derivation (χ : Type) where
  | group (name : Bytes)
  | attrs (as : List (Attr χ))

namespace View

def start : View χ := ⟨[], [], []⟩

def derive (v : View χ) : Derivation χ → View χ
  | .group name =>
      if name = [] then v else ⟨v.groups ++ [name], v.pfx ++ name ++ ascii ".", v.preform⟩
  | .attrs as => { v with preform := v.preform ++ flattenAttrs v.pfx as }

def fields (v : View χ) (as : List (Attr χ)) : List (Field χ) :=
  v.preform ++ flattenAttrs v.pfx as

end View

def SlogHandler.view (m : Memory χ) (h : SlogHandler) : View χ :=
  ⟨m.strings.view h.groups, h.pfx, m.fields.view h.preform⟩

namespace Memory

def empty : Memory χ := ⟨.empty, .empty⟩

structure Sound (m : Memory χ) : Prop where
  strings : m.strings.Sound
  fields : m.fields.Sound

structure Valid (m : Memory χ) (h : SlogHandler) : Prop where
  groups : m.strings.Valid h.groups
  preform : m.fields.Valid h.preform

-- Every array of m is in m' as it was.
structure Keeps (m m' : Memory χ) : Prop where
  strings : Slices.Store.Keeps m.strings.arrays.length m.strings m'.strings
  fields : Slices.Store.Keeps m.fields.arrays.length m.fields m'.fields

theorem sound_empty : (empty : Memory χ).Sound :=
  ⟨Slices.Store.sound_empty, Slices.Store.sound_empty⟩

theorem Keeps.refl (m : Memory χ) : Keeps m m := ⟨.refl le_rfl, .refl le_rfl⟩

theorem Keeps.sound {m m' : Memory χ} (h : Keeps m m') (hm : m.Sound) : m'.Sound :=
  ⟨h.strings.sound hm.strings, h.fields.sound hm.fields⟩

theorem Keeps.valid {m m' : Memory χ} {sh : SlogHandler} (h : Keeps m m') (hs : m.Valid sh) :
    m'.Valid sh :=
  ⟨h.strings.valid hs.groups, h.fields.valid hs.preform⟩

theorem Keeps.view {m m' : Memory χ} {sh : SlogHandler} (h : Keeps m m') (hs : m.Valid sh) :
    sh.view m' = sh.view m := by
  rw [SlogHandler.view, SlogHandler.view, h.strings.view hs.groups, h.fields.view hs.preform]

end Memory

namespace SlogHandler

variable (grow : Nat → Nat → Nat) {m : Memory χ}

theorem withAttrs_spec (hm : m.Sound) (h : SlogHandler) (attrs : List (Attr χ)) :
    m.Keeps (h.withAttrs grow m attrs).1 ∧
      (h.withAttrs grow m attrs).1.Valid (h.withAttrs grow m attrs).2 ∧
      (h.withAttrs grow m attrs).2.view (h.withAttrs grow m attrs).1 =
        (h.view m).derive (.attrs attrs) := by
  have hgroups := Slices.Store.extends_copy grow hm.strings h.groups
  have hcopy := Slices.Store.extends_copy grow hm.fields h.preform
  have hpush := Slices.Store.extends_foldl_push grow hcopy.owned (flattenAttrs h.pfx attrs)
  rw [← appendAttrs_eq_foldl] at hpush
  have hall := hcopy.trans hpush
  exact ⟨⟨hgroups.keeps, hall.keeps⟩, ⟨hgroups.owned.valid, hall.owned.valid⟩,
    (View.mk.injEq ..).mpr ⟨hgroups.view_eq, rfl, hall.view_eq⟩⟩

theorem withGroup_spec (hm : m.Sound) {h : SlogHandler} (hh : m.Valid h) (name : Bytes) :
    m.Keeps (h.withGroup grow m name).1 ∧
      (h.withGroup grow m name).1.Valid (h.withGroup grow m name).2 ∧
      (h.withGroup grow m name).2.view (h.withGroup grow m name).1 =
        (h.view m).derive (.group name) := by
  unfold withGroup
  split
  next hname => exact ⟨.refl m, hh, by rw [View.derive, if_pos hname]⟩
  next hname =>
    have hcopy := Slices.Store.extends_copy grow hm.strings h.groups
    have hpreform := Slices.Store.extends_copy grow hm.fields h.preform
    have hall := hcopy.trans (Slices.Store.extends_append grow hcopy.owned [name])
    rw [View.derive, if_neg hname]
    exact ⟨⟨hall.keeps, hpreform.keeps⟩, ⟨hall.owned.valid, hpreform.owned.valid⟩,
      (View.mk.injEq ..).mpr ⟨hall.view_eq, rfl, hpreform.view_eq⟩⟩

theorem fields_spec (m : Memory χ) (h : SlogHandler) (attrs : List (Attr χ)) :
    m.Keeps (h.fields grow m attrs).1 ∧
      (h.fields grow m attrs).2 = (h.view m).fields attrs := by
  have hmake := Slices.Store.extends_make m.fields (h.preform.len + attrs.length)
  have hinherit := hmake.trans (Slices.Store.extends_append grow hmake.owned
    (m.fields.view h.preform))
  have hpush := Slices.Store.extends_foldl_push grow hinherit.owned
    (flattenAttrs h.pfx attrs)
  rw [← appendAttrs_eq_foldl] at hpush
  have hall := hinherit.trans hpush
  exact ⟨⟨.refl le_rfl, hall.keeps⟩, hall.view_eq⟩

end SlogHandler

end Slog

end UbgoLogger
