import UbgoLogger.Pipeline.Template

namespace UbgoLogger.Template
open Foundation.Text

variable {χ : Type}

-- A hole of a printed template: its name does not end it, and does not turn it into an escape.
def Piece.Printable : Piece → Prop
  | .text _ => True
  | .hole name => 0x7d ∉ name ∧ name.head? ≠ some 0x7b

instance (p : Piece) : Decidable p.Printable :=
  match p with
  | .text _ => isTrue trivial
  | .hole name => inferInstanceAs (Decidable (0x7d ∉ name ∧ name.head? ≠ some 0x7b))

def double (c : Byte) : Bytes := if c = 0x7b ∨ c = 0x7d then [c, c] else [c]

def Piece.print : Piece → Bytes
  | .text s => s.flatMap double
  | .hole name => 0x7b :: (name ++ [0x7d])

def print (segs : List Piece) : Bytes := segs.flatMap Piece.print

-- What the holes stand for: the arguments in order, then nil.
def holeValues (segs : List Piece) (args : List (AnyVal χ)) : List (AnyVal χ) :=
  (List.range (holes segs).length).map fun i => (args[i]?).getD .nil

theorem pieces_skip (s : Bytes) (skip : Nat) : pieces s skip = pieces (s.drop skip) 0 := by
  induction s generalizing skip with
  | nil => simp [pieces]
  | cons c tail ih =>
    cases skip with
    | zero => rfl
    | succ skip => exact ih skip

theorem pieces_double (c : Byte) (t : Bytes) :
    pieces (double c ++ t) 0 = .text [c] :: pieces t 0 := by
  unfold double
  split
  next hc =>
    rcases hc with rfl | rfl
    · simp [pieces]
    · simp [pieces]
  next hc =>
    push Not at hc
    simp [pieces, hc.1, hc.2]

theorem pieces_literal (s t : Bytes) :
    pieces (s.flatMap double ++ t) 0 = s.map (fun c => .text [c]) ++ pieces t 0 := by
  induction s with
  | nil => rfl
  | cons c s ih =>
    rw [List.flatMap_cons, List.append_assoc, pieces_double, ih]
    rfl

theorem pieces_hole {name : Bytes} (h : (Piece.hole name).Printable) (t : Bytes) :
    pieces (0x7b :: (name ++ 0x7d :: t)) 0 = .hole name :: pieces t 0 := by
  obtain ⟨hclose, hopen⟩ := h
  have hhead : (name ++ 0x7d :: t).head? ≠ some 0x7b := by
    cases name with
    | nil => simp
    | cons c name => simpa using hopen
  have hidx : (name ++ 0x7d :: t).idxOf? 0x7d = some name.length := by
    refine List.idxOf?_eq_some_iff.mpr ⟨by simp, by simp, ?_⟩
    intro j hj heq
    rw [List.getElem_append_left hj] at heq
    exact hclose (heq ▸ List.getElem_mem hj)
  rw [pieces, if_pos rfl, if_neg hhead, hidx]
  simp only [pieces_skip _ (name.length + 1)]
  simp

def Piece.singles : Piece → List Piece
  | .text s => s.map fun c => .text [c]
  | .hole name => [.hole name]

theorem pieces_print {segs : List Piece} (h : ∀ p ∈ segs, p.Printable) :
    pieces (print segs) 0 = segs.flatMap Piece.singles := by
  induction segs with
  | nil => rfl
  | cons p segs ih =>
    obtain ⟨hp, hsegs⟩ := List.forall_mem_cons.mp h
    cases p with
    | text s => exact (pieces_literal s (print segs)).trans (congrArg _ (ih hsegs))
    | hole name =>
      have hshape : print (.hole name :: segs) = 0x7b :: (name ++ 0x7d :: print segs) := by
        simp [print, Piece.print]
      rw [hshape, pieces_hole hp, ih hsegs]
      rfl

theorem spell_literal (s : Bytes) (ps : List Piece) (ts : List Bytes) :
    spell (s.map (fun c => .text [c]) ++ ps) ts = s ++ spell ps ts := by
  induction s with
  | nil => rfl
  | cons c s ih => exact congrArg (c :: ·) ih

theorem bindHoles_literal (s : Bytes) (ps : List Piece) (vs : List (AnyVal χ)) :
    bindHoles (s.map (fun c => .text [c]) ++ ps) vs = bindHoles ps vs := by
  induction s with
  | nil => rfl
  | cons c s ih => exact ih

theorem holeValues_text (s : Bytes) (segs : List Piece) (args : List (AnyVal χ)) :
    holeValues (.text s :: segs) args = holeValues segs args := rfl

theorem holeValues_hole (name : Bytes) (segs : List Piece) (args : List (AnyVal χ)) :
    holeValues (.hole name :: segs) args = args.headD .nil :: holeValues segs args.tail := by
  have hlength : (holes (.hole name :: segs)).length = (holes segs).length + 1 := rfl
  rw [holeValues, hlength, List.range_succ_eq_map, List.map_cons, List.map_map]
  cases args with
  | nil => rfl
  | cons v vs => rfl

theorem spell_singles (rt : Runtime χ) (segs : List Piece) (args : List (AnyVal χ)) :
    spell (segs.flatMap Piece.singles) (args.map (sprintAny rt)) =
      spell segs ((holeValues segs args).map (sprintAny rt)) := by
  induction segs generalizing args with
  | nil => rfl
  | cons p segs ih =>
    cases p with
    | text s =>
      rw [List.flatMap_cons, Piece.singles, spell_literal, ih, holeValues_text, spell]
    | hole name =>
      rw [holeValues_hole, List.flatMap_cons, Piece.singles]
      cases args with
      | nil => exact congrArg (ascii "<nil>" ++ ·) (ih [])
      | cons v vs => exact congrArg (sprintAny rt v ++ ·) (ih vs)

theorem bindHoles_singles (segs : List Piece) (args : List (AnyVal χ)) :
    bindHoles (segs.flatMap Piece.singles) args =
      List.zipWith anyField (holes segs) (holeValues segs args) := by
  induction segs generalizing args with
  | nil => rfl
  | cons p segs ih =>
    cases p with
    | text s => rw [List.flatMap_cons, Piece.singles, bindHoles_literal, ih]; rfl
    | hole name =>
      rw [holeValues_hole, List.flatMap_cons, Piece.singles]
      cases args with
      | nil => exact congrArg (anyField name .nil :: ·) (ih [])
      | cons v vs => exact congrArg (anyField name v :: ·) (ih vs)

theorem keys_bindHoles (ps : List Piece) (vs : List (AnyVal χ)) :
    (bindHoles ps vs).map Field.key = holes ps := by
  induction ps generalizing vs with
  | nil => rfl
  | cons p ps ih =>
    cases p with
    | text s => exact ih vs
    | hole name =>
      cases vs with
      | nil => exact congrArg (name :: ·) (ih [])
      | cons v vs => exact congrArg (name :: ·) (ih vs)

theorem parseTemplate_print (rt : Runtime χ) :
    (∀ (segs : List Piece) (args : List (AnyVal χ)), (∀ p ∈ segs, p.Printable) →
      parseTemplate rt (print segs) args =
        (spell segs ((holeValues segs args).map (sprintAny rt)),
          List.zipWith anyField (holes segs) (holeValues segs args) ++
            [stringField (ascii "msg_template") (print segs)])) ∧
    ∀ (tmpl : Bytes) (args args' : List (AnyVal χ)),
      (parseTemplate rt tmpl args).2.map Field.key =
        (parseTemplate rt tmpl args').2.map Field.key := by
  refine ⟨?_, ?_⟩
  · intro segs args h
    rw [parseTemplate_eq, pieces_print h, spell_singles, bindHoles_singles]
  · intro tmpl args args'
    simp only [parseTemplate_eq, List.map_append, keys_bindHoles]

def braced : List Piece := [.text (ascii "\x7b"), .hole (ascii "a"), .text (ascii "\x7d")]

theorem parseTemplate_print_braced :
    (∀ p ∈ braced, p.Printable) ∧ print braced = ascii "\x7b\x7b\x7ba\x7d\x7d\x7d" ∧
    parseTemplate bareRuntime (print braced) [.string (ascii "\x7bb\x7d")] =
      (ascii "\x7b\x7bb\x7d\x7d",
        [anyField (ascii "a") (.string (ascii "\x7bb\x7d")),
          stringField (ascii "msg_template") (print braced)]) :=
  ⟨by decide, by decide,
    ((parseTemplate_print bareRuntime).1 braced [.string (ascii "\x7bb\x7d")] (by decide)).trans
      (by decide)⟩

end UbgoLogger.Template
