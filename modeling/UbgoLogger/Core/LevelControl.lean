import UbgoLogger.Core.Metrics

namespace UbgoLogger
open Foundation.Text

-- What strings.ToLower, strings.TrimSpace and strconv.Atoi make of a text.
structure Strings where
  toLower : Bytes → Bytes
  trimSpace : Bytes → Bytes
  atoi : Bytes → Option Int

def parseLevel (lib : Strings) (s : Bytes) : Option Level :=
  let s := lib.trimSpace (lib.toLower s)
  if s = ascii "trace" then some Level.trace
  else if s = ascii "debug" then some Level.debug
  else if s = ascii "info" then some Level.info
  else if s = ascii "warn" ∨ s = ascii "warning" then some Level.warn
  else if s = ascii "error" then some Level.error
  else if s = ascii "fatal" then some Level.fatal
  else
    match lib.atoi s with
    | some n => if 1 ≤ n ∧ n ≤ 24 then some n else none
    | none => none

theorem parseLevel_range {lib : Strings} {s : Bytes} {l : Level} (h : parseLevel lib s = some l) :
    1 ≤ l ∧ l ≤ 24 := by
  simp only [parseLevel] at h
  repeat' split at h
  all_goals cases h
  all_goals first | assumption | decide

def bands : List (Bytes × Level) :=
  [(ascii "trace", Level.trace), (ascii "debug", Level.debug), (ascii "info", Level.info),
    (ascii "warn", Level.warn), (ascii "warning", Level.warn), (ascii "error", Level.error),
    (ascii "fatal", Level.fatal)]

-- A text stands for a level: the name of a band, or else a number from 1 to 24.
def Names (lib : Strings) (s : Bytes) (l : Level) : Prop :=
  (lib.trimSpace (lib.toLower s), l) ∈ bands ∨
    lib.trimSpace (lib.toLower s) ∉ bands.map Prod.fst ∧
      lib.atoi (lib.trimSpace (lib.toLower s)) = some l ∧ 1 ≤ l ∧ l ≤ 24

theorem parseLevel_eq_some_iff {lib : Strings} {s : Bytes} {l : Level} :
    parseLevel lib s = some l ↔ Names lib s l := by
  rw [parseLevel, Names]
  generalize lib.trimSpace (lib.toLower s) = t
  by_cases hband : t ∈ bands.map Prod.fst
  · simp only [bands, List.map_cons, List.map_nil, List.mem_cons, List.not_mem_nil, or_false] at hband
    rcases hband with rfl | rfl | rfl | rfl | rfl | rfl | rfl
    all_goals simp +decide [bands, eq_comm]
  · have hnone : (t, l) ∉ bands := fun hmem => hband (List.mem_map_of_mem hmem)
    rw [or_iff_right hnone, and_iff_right hband]
    simp only [bands, List.map_cons, List.map_nil, List.mem_cons, List.not_mem_nil, or_false,
      not_or] at hband
    obtain ⟨h₁, h₂, h₃, h₄, h₅, h₆, h₇⟩ := hband
    simp only [h₁, h₂, h₃, h₄, h₅, h₆, h₇, or_self, if_false]
    cases lib.atoi t with
    | none => simp
    | some n =>
      simp only [Option.some.injEq]
      split
      · simp only [Option.some.injEq]
        constructor
        · rintro rfl
          exact ⟨rfl, ‹_›⟩
        · exact fun h => h.1
      · simp only [reduceCtorEq, false_iff]
        rintro ⟨rfl, h⟩
        exact absurd h ‹_›

theorem parseLevel_eq_iff {lib : Strings} {s t : Bytes} :
    parseLevel lib s = parseLevel lib t ↔ ∀ l, Names lib s l ↔ Names lib t l := by
  simp only [← parseLevel_eq_some_iff]
  constructor
  · intro h l
    rw [h]
  · exact Option.ext

-- MarshalText, which lowers the letters of String one byte at a time.
def Level.marshalText (l : Level) : Bytes :=
  l.string.map fun c => if 65 ≤ c ∧ c ≤ 90 then c + 32 else c

inductive HttpMethod where
  | get
  | put
  | post
  | other
  deriving DecidableEq

-- The level parameter of the query, and the body as the pieces its reader hands out.
structure Request where
  method : HttpMethod
  level : Bytes
  body : List Bytes

structure Response where
  status : Nat
  contentType : Option Bytes
  body : Bytes
  deriving DecidableEq

-- http.Error
def httpError (text : Bytes) (code : Nat) : Response where
  status := code
  contentType := some (ascii "text/plain; charset=utf-8")
  body := text ++ [10]

-- One Read into a buffer of that size.
def readOnce (body : List Bytes) (size : Nat) : Bytes := (body.headD []).take size

section Pieces

variable {b p : Bytes} {body : List Bytes} {size : Nat}

theorem readOnce_isPrefix (body : List Bytes) (size : Nat) :
    readOnce body size <+: body.flatten ∧ (readOnce body size).length ≤ size := by
  refine ⟨?_, List.length_take_le _ _⟩
  cases body with
  | nil => simp [readOnce]
  | cons x xs => exact (List.take_prefix _ _).trans (List.prefix_append _ _)

-- The contract of a reader leaves it free to hand out any part of what is there.
theorem exists_readOnce (h : p <+: b) (hp : p.length ≤ size) :
    ∃ body : List Bytes, body.flatten = b ∧ readOnce body size = p := by
  obtain ⟨q, rfl⟩ := h
  refine ⟨[p, q], by simp, ?_⟩
  exact List.take_of_length_le hp

end Pieces

namespace LevelHandler

def requested (r : Request) : Bytes := if r.level = [] then readOnce r.body 16 else r.level

def serveHTTP (lib : Strings) (lv : Level) (r : Request) : Level × Response :=
  match r.method with
  | .get =>
      (lv,
        { status := 200
          contentType := some (ascii "application/json")
          body := ascii "\x7b\"level\":\"" ++ lv.marshalText ++ ascii "\",\"severity_number\":" ++
            formatInt lv ++ ascii "\x7d\n" })
  | .put | .post =>
      match parseLevel lib (requested r) with
      | none => (lv, httpError (ascii "bad level: " ++ requested r) 400)
      | some l =>
          (l,
            { status := 200
              contentType := none
              body := ascii "\x7b\"level\":\"" ++ l.marshalText ++ ascii "\"\x7d\n" })
  | .other => (lv, httpError (ascii "method not allowed") 405)

-- A refused request leaves the level alone; one that changes it sets a level of a band.
theorem serveHTTP_level (lib : Strings) (lv : Level) (r : Request) :
    (serveHTTP lib lv r).1 = lv ∨ (serveHTTP lib lv r).2.status = 200 ∧
      1 ≤ (serveHTTP lib lv r).1 ∧ (serveHTTP lib lv r).1 ≤ 24 := by
  simp only [serveHTTP]
  repeat' split
  all_goals first | exact .inl rfl | exact .inr ⟨rfl, parseLevel_range ‹_›⟩

-- What a request with that body is to do to the level lv, and its status.
def Answered (lib : Strings) (lv : Level) (whole : Bytes) (out : Level × Response) : Prop :=
  match parseLevel lib whole with
  | some l => out.1 = l ∧ out.2.status = 200
  | none => out.1 = lv ∧ out.2.status = 400

theorem answered_iff {lib : Strings} {lv : Level} {r : Request}
    (hm : r.method = .put ∨ r.method = .post) (hq : r.level = []) (whole : Bytes) :
    Answered lib lv whole (serveHTTP lib lv r) ↔
      parseLevel lib (readOnce r.body 16) = parseLevel lib whole := by
  have hread : requested r = readOnce r.body 16 := if_pos hq
  have hserve : serveHTTP lib lv r =
      match parseLevel lib (readOnce r.body 16) with
      | none => (lv, httpError (ascii "bad level: " ++ readOnce r.body 16) 400)
      | some l =>
          (l,
            { status := 200
              contentType := none
              body := ascii "\x7b\"level\":\"" ++ l.marshalText ++ ascii "\"\x7d\n" }) := by
    rcases hm with hm | hm <;> rw [serveHTTP, hm, ← hread]
  rw [hserve, Answered]
  cases parseLevel lib (readOnce r.body 16) with
  | none => cases parseLevel lib whole <;> simp [httpError]
  | some l => cases parseLevel lib whole <;> simp

theorem level_follows_body_iff (lib : Strings) (lv : Level) (r : Request)
    (hm : r.method = .put ∨ r.method = .post) (hq : r.level = []) :
    (Answered lib lv r.body.flatten (serveHTTP lib lv r) ↔
      ∀ l, Names lib (readOnce r.body 16) l ↔ Names lib r.body.flatten l) ∧
    ((∀ pieces : List Bytes, pieces.flatten = r.body.flatten →
        Answered lib lv r.body.flatten (serveHTTP lib lv { r with body := pieces })) ↔
      ∀ p, p <+: r.body.flatten → p.length ≤ 16 → ∀ l, Names lib p l ↔ Names lib r.body.flatten l) := by
  refine ⟨(answered_iff hm hq _).trans parseLevel_eq_iff, ?_⟩
  constructor
  · intro h p hp hlen
    obtain ⟨pieces, hflat, rfl⟩ := exists_readOnce hp hlen
    exact parseLevel_eq_iff.mp ((answered_iff (r := { r with body := pieces }) hm hq _).mp (h pieces hflat))
  · intro h pieces hflat
    obtain ⟨hpre, hlen⟩ := readOnce_isPrefix pieces 16
    rw [hflat] at hpre
    exact (answered_iff (r := { r with body := pieces }) hm hq _).mpr
      (parseLevel_eq_iff.mpr (h _ hpre hlen))

end LevelHandler

-- strings.ToLower, strings.TrimSpace and strconv.Atoi on ASCII texts.
def asciiStrings : Strings where
  toLower s := s.map fun c => if 65 ≤ c ∧ c ≤ 90 then c + 32 else c
  trimSpace s :=
    let space := fun c : Byte => decide (c = 32) || decide (9 ≤ c ∧ c ≤ 13)
    ((s.dropWhile space).reverse.dropWhile space).reverse
  atoi s :=
    let digits := if s.head? = some 43 ∨ s.head? = some 45 then s.tail else s
    match parseDecimal digits with
    | none => none
    | some m =>
      let n : Int := if s.head? = some 45 then -(m : Int) else m
      if -2 ^ 63 ≤ n ∧ n < 2 ^ 63 then some n else none

-- Two bodies that take two Reads: of the first, what follows is only a newline.
theorem LevelHandler.level_follows_body_iff_split :
    LevelHandler.Answered asciiStrings Level.info (ascii " Debug\n")
      (LevelHandler.serveHTTP asciiStrings Level.info ⟨.put, [], [ascii " Debug", ascii "\n"]⟩) ∧
    ¬ LevelHandler.Answered asciiStrings Level.info (ascii "warn")
      (LevelHandler.serveHTTP asciiStrings Level.info ⟨.post, [], [ascii "wa", ascii "rn"]⟩) := by
  have hdebug := (LevelHandler.level_follows_body_iff asciiStrings Level.info
    ⟨.put, [], [ascii " Debug", ascii "\n"]⟩ (.inl rfl) rfl).1
  have hwarn := (LevelHandler.level_follows_body_iff asciiStrings Level.info
    ⟨.post, [], [ascii "wa", ascii "rn"]⟩ (.inr rfl) rfl).1
  refine ⟨hdebug.mpr (parseLevel_eq_iff.mp (by decide)), fun h => ?_⟩
  exact absurd (parseLevel_eq_iff.mpr (hwarn.mp h)) (by decide)

-- A body in two pieces, a number cut after its first digit, and a level followed by more than the
-- buffer holds.
theorem LevelHandler.level_of_first_read :
    parseLevel asciiStrings (ascii "warn") = some Level.warn ∧
    LevelHandler.serveHTTP asciiStrings Level.info ⟨.put, [], [ascii "wa", ascii "rn"]⟩ =
      (Level.info, httpError (ascii "bad level: wa") 400) ∧
    parseLevel asciiStrings (ascii "17") = some Level.error ∧
    (LevelHandler.serveHTTP asciiStrings Level.info ⟨.post, [], [ascii "1", ascii "7"]⟩).1 =
      Level.trace ∧
    parseLevel asciiStrings (ascii "info            rmal") = none ∧
    (LevelHandler.serveHTTP asciiStrings Level.warn
      ⟨.put, [], [ascii "info            rmal"]⟩).1 = Level.info := by
  decide

-- CycleLevelOnSignal
structure LevelCycle where
  normal : Level
  verbose : Level
  on : Bool

-- One delivery of the signal: the level it sets, and the flag turned over.
def LevelCycle.deliver (c : LevelCycle) : Level × LevelCycle :=
  (if c.on then c.normal else c.verbose, { c with on := !c.on })

end UbgoLogger
