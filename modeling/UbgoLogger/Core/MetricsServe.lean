import UbgoLogger.Core.Metrics
import UbgoLogger.Encode.JsonLine
import UbgoLogger.Foundation.Counter
import UbgoLogger.Foundation.JsonParse
import UbgoLogger.Foundation.Machine
import UbgoLogger.Foundation.Scan

namespace UbgoLogger
open Foundation Foundation.Text Foundation.Lines

namespace Metrics

def bands : List Bytes :=
  [ascii "TRACE", ascii "DEBUG", ascii "INFO", ascii "WARN", ascii "ERROR", ascii "FATAL"]

-- The entries of the map ByLevel.
def entries (s : Snapshot) : List (Bytes × UInt64) :=
  bands.filterMap fun k => (s.byLevel k).map (Prod.mk k)

def appendBands : Bytes → Bool → List (Bytes × UInt64) → Bytes
  | b, _, [] => b
  | b, first, (k, v) :: order =>
      let b := if first then b else b ++ [0x2c]
      appendBands (b ++ [0x22] ++ k ++ [0x22, 0x3a] ++ decimal v.toNat) false order

-- A range over a map takes its entries in any order.
def serveHTTP (s : Snapshot) (order : List (Bytes × UInt64)) : Bytes :=
  let b := ascii "\x7b\"emitted\":"
  let b := b ++ decimal s.emitted.toNat
  let b := b ++ ascii ",\"dropped\":"
  let b := b ++ decimal s.dropped.toNat
  let b := b ++ ascii ",\"sink_errors\":"
  let b := b ++ decimal s.sinkErrors.toNat
  let b := b ++ ascii ",\"by_level\":\x7b"
  appendBands b true order ++ [0x7d, 0x7d, newline]

def bandMember (kv : Bytes × UInt64) : Bytes × Bytes := (kv.1, decimal kv.2.toNat)

def number (n : Nat) : Json := .number (intNumeral n)

def bandValue (kv : Bytes × UInt64) : Bytes × Json := (kv.1, number kv.2.toNat)

theorem string_mem_bands {l : Int} (h : 1 ≤ l) : Level.string l ∈ bands := by
  have hpos : ¬ l ≤ 0 := by omega
  rw [Level.string, if_neg hpos]
  split_ifs <;> simp [bands]

theorem band_plain (k : Bytes) (hk : k ∈ bands) : ∀ b ∈ k, Buffer.plain b = true := by
  have hall : (bands.all fun k => k.all Buffer.plain) = true := by decide
  exact List.all_eq_true.mp (List.all_eq_true.mp hall k hk)

theorem appendBands_separated {order : List (Bytes × UInt64)} (h : ∀ kv ∈ order, kv.1 ∈ bands)
    (b : Bytes) : appendBands b false order = b ++ separated (order.map bandMember) := by
  induction order generalizing b with
  | nil => simp [appendBands]
  | cons kv order ih =>
    obtain ⟨hk, hrest⟩ := List.forall_mem_cons.mp h
    rw [appendBands, ih hrest, List.map_cons, separated_cons, memberText, bandMember,
      quoted_of_plain (band_plain _ hk)]
    simp

theorem appendBands_joined {order : List (Bytes × UInt64)} (h : ∀ kv ∈ order, kv.1 ∈ bands)
    (b : Bytes) : appendBands b true order = b ++ joined (order.map bandMember) := by
  cases order with
  | nil => simp [appendBands, joined]
  | cons kv order =>
    obtain ⟨hk, hrest⟩ := List.forall_mem_cons.mp h
    rw [appendBands, appendBands_separated hrest, List.map_cons, joined, memberText, bandMember,
      quoted_of_plain (band_plain _ hk)]
    simp

theorem number_value (n : Nat) (r : Bytes) : Json.Value (decimal n ++ r) (number n) r := by
  rw [decimal_eq_formatInt]
  exact formatInt_value n r

theorem bands_value (order : List (Bytes × UInt64)) (r : Bytes) :
    Json.Value (0x7b :: (joined (order.map bandMember) ++ 0x7d :: r))
      (.object (order.map bandValue)) r := by
  cases order with
  | nil => exact .emptyObject (Json.ws_refl _)
  | cons kv order =>
    have hdenotes : List.Forall₂ Denotes ((kv :: order).map bandMember)
        ((kv :: order).map bandValue) := by
      rw [List.forall₂_map_left_iff, List.forall₂_map_right_iff, List.forall₂_same]
      exact fun kv _ => ⟨rfl, number_value kv.2.toNat⟩
    exact joined_object hdenotes (List.cons_ne_nil _ _) r

def value (s : Snapshot) (order : List (Bytes × UInt64)) : Json :=
  .object [(ascii "emitted", number s.emitted.toNat), (ascii "dropped", number s.dropped.toNat),
    (ascii "sink_errors", number s.sinkErrors.toNat), (ascii "by_level", .object (order.map bandValue))]

def members (s : Snapshot) (order : List (Bytes × UInt64)) : List (Bytes × Bytes) :=
  [(ascii "emitted", decimal s.emitted.toNat), (ascii "dropped", decimal s.dropped.toNat),
    (ascii "sink_errors", decimal s.sinkErrors.toNat),
    (ascii "by_level", 0x7b :: (joined (order.map bandMember) ++ [0x7d]))]

theorem serveHTTP_joined (s : Snapshot) {order : List (Bytes × UInt64)}
    (h : ∀ kv ∈ order, kv.1 ∈ bands) :
    serveHTTP s order = 0x7b :: (joined (members s order) ++ [0x7d, newline]) := by
  have hemitted : ascii "\x7b\"emitted\":" = 0x7b :: (quoted (ascii "emitted") ++ [0x3a]) := by
    decide
  have hdropped : ascii ",\"dropped\":" = 0x2c :: (quoted (ascii "dropped") ++ [0x3a]) := by decide
  have herrors : ascii ",\"sink_errors\":" = 0x2c :: (quoted (ascii "sink_errors") ++ [0x3a]) := by
    decide
  have hlevels : ascii ",\"by_level\":\x7b" =
      0x2c :: (quoted (ascii "by_level") ++ [0x3a, 0x7b]) := by decide
  rw [serveHTTP, appendBands_joined h, hemitted, hdropped, herrors, hlevels]
  simp [members, joined, separated, memberText]

theorem serveHTTP_parse (s : Snapshot) {order : List (Bytes × UInt64)}
    (h : ∀ kv ∈ order, kv.1 ∈ bands) : Json.parse (serveHTTP s order) = some (value s order) := by
  have hdenotes : List.Forall₂ Denotes (members s order) [(ascii "emitted", number s.emitted.toNat),
      (ascii "dropped", number s.dropped.toNat), (ascii "sink_errors", number s.sinkErrors.toNat),
      (ascii "by_level", .object (order.map bandValue))] := by
    refine .cons ⟨rfl, number_value _⟩ (.cons ⟨rfl, number_value _⟩ (.cons ⟨rfl, number_value _⟩
      (.cons ⟨rfl, fun r => ?_⟩ .nil)))
    simpa using bands_value order r
  rw [serveHTTP_joined s h, Json.parse_eq_some]
  exact ⟨_, [newline], Json.ws_refl _, joined_object hdenotes (List.cons_ne_nil _ _) [newline],
    [newline], rfl, rfl⟩

theorem bandTotal_eq_zero {k : Bytes} (hk : k ∉ bands) {l : Nat} (hl : 1 ≤ l) (vs : List Nat) :
    bandTotal k l vs = 0 := by
  induction vs generalizing l with
  | nil => rfl
  | cons v vs ih =>
    have hne : Level.string l ≠ k := fun h => hk (h ▸ string_mem_bands (by omega))
    rw [bandTotal, if_neg hne, ih (by omega)]

theorem mem_entries {s : Snapshot} {vs : List UInt64} (hs : s.byLevel = collect (fun _ => none) 1 vs)
    {kv : Bytes × UInt64} : kv ∈ entries s ↔ s.byLevel kv.1 = some kv.2 := by
  obtain ⟨k, v⟩ := kv
  rw [entries, List.mem_filterMap]
  constructor
  · rintro ⟨k', -, hk'⟩
    obtain ⟨v', hv', heq⟩ := Option.map_eq_some_iff.mp hk'
    cases heq
    exact hv'
  · intro h
    refine ⟨k, ?_, by rw [h]; rfl⟩
    by_contra hk
    rw [hs, collect_apply, if_pos (bandTotal_eq_zero hk le_rfl _)] at h
    cases h

theorem entries_band {s : Snapshot} {kv : Bytes × UInt64} (h : kv ∈ entries s) : kv.1 ∈ bands := by
  obtain ⟨k, hk, hkv⟩ := List.mem_filterMap.mp h
  obtain ⟨v, -, rfl⟩ := Option.map_eq_some_iff.mp hkv
  exact hk

theorem entries_nodup (s : Snapshot) : ((entries s).map Prod.fst).Nodup := by
  rw [entries, List.map_filterMap]
  refine List.Nodup.filterMap (fun k k' b hb hb' => ?_) (by decide)
  simp only [Option.map_map, Option.mem_def, Option.map_eq_some_iff, Function.comp] at hb hb'
  obtain ⟨v, -, rfl⟩ := hb
  obtain ⟨v', -, rfl⟩ := hb'
  rfl

theorem bandTotal_le {k : Bytes} {vs ws : List Nat} (h : List.Forall₂ (· ≤ ·) vs ws) (l : Nat) :
    bandTotal k l vs ≤ bandTotal k l ws := by
  induction h generalizing l with
  | nil => exact le_rfl
  | cons hv _ ih =>
    rw [bandTotal, bandTotal]
    exact Nat.add_le_add (by split <;> simp [hv]) (ih (l + 1))

end Metrics

namespace Scrape
open Metrics

inductive Cell where
  | emitted
  | dropped
  | sinkErrors
  | level (l : Nat)
  deriving DecidableEq

-- The order in which Snapshot loads the counters.
def cells : List Cell :=
  .emitted :: .dropped :: .sinkErrors :: (List.range 24).map fun n => .level (n + 1)

def get (m : Metrics) : Cell → UInt64
  | .emitted => m.emitted
  | .dropped => m.dropped
  | .sinkErrors => m.sinkErrors
  | .level l => m.byLevel.getD l 0

variable {ι κ : Type}

-- A goroutine is between the two updates of incEmitted, a request has loaded some counters.
structure State (ι κ : Type) where
  metrics : Metrics
  writer : ι → Option Level
  reader : κ → Option (List UInt64)

inductive Act (ι κ : Type) where
  | addEmitted (i : ι) (l : Level)
  | addLevel (i : ι)
  | incDropped
  | incSinkError
  | snapshot (j : κ)
  | load (j : κ)
  | serve (j : κ) (order : List (Bytes × UInt64))

inductive Event (κ : Type) where
  | add (c : Cell)
  | began (j : κ)
  | served (j : κ) (s : Snapshot) (body : Bytes)

namespace Event

def added : Event κ → Option Cell
  | .add c => some c
  | .began _ | .served _ _ _ => none

def request : Event κ → Option κ
  | .began j | .served j _ _ => some j
  | .add _ => none

end Event

def additions (log : List (Event κ)) : List Cell := log.filterMap Event.added

def tally (log : List (Event κ)) (c : Cell) : Nat := (additions log).count c

theorem tally_append (log evs : List (Event κ)) (c : Cell) :
    tally (log ++ evs) c = tally log c + tally evs c := by
  rw [tally, additions, List.filterMap_append, List.count_append]
  rfl

theorem tally_add (c c' : Cell) : tally [(.add c : Event κ)] c' = if c' = c then 1 else 0 := by
  by_cases h : c' = c
  · simp [h, tally, additions, Event.added]
  · simp [h, Ne.symm h, tally, additions, Event.added]

theorem tally_le (log : List (Event κ)) (c : Cell) : tally log c ≤ (additions log).length :=
  List.count_le_length

theorem additions_le_append (log evs : List (Event κ)) :
    (additions log).length ≤ (additions (log ++ evs)).length := by
  rw [additions, additions, List.filterMap_append, List.length_append]
  exact Nat.le_add_right _ _

theorem tally_le_append (log evs : List (Event κ)) (c : Cell) :
    tally log c ≤ tally (log ++ evs) c := by
  rw [tally_append]
  exact Nat.le_add_right _ _

-- The request j began there and has shown nothing since.
def Since (log : List (Event κ)) (j : κ) (before : List (Event κ)) : Prop :=
  ∃ during, log = before ++ .began j :: during ∧ ∀ e ∈ during, e.request ≠ some j

section Since

variable {log before evs : List (Event κ)} {j : κ}

theorem Since.start (log : List (Event κ)) (j : κ) : Since (log ++ [.began j]) j log :=
  ⟨[], rfl, fun _ h => absurd h List.not_mem_nil⟩

theorem Since.append (h : Since log j before) (hevs : ∀ e ∈ evs, e.request ≠ some j) :
    Since (log ++ evs) j before := by
  obtain ⟨during, rfl, hquiet⟩ := h
  refine ⟨during ++ evs, by simp, fun e he => ?_⟩
  rcases List.mem_append.mp he with he | he
  · exact hquiet e he
  · exact hevs e he

theorem Since.tally_le (h : Since log j before) (c : Cell) : tally before c ≤ tally log c := by
  obtain ⟨during, rfl, -⟩ := h
  exact tally_le_append _ _ c

end Since

def levels (log : List (Event κ)) : List Int :=
  (additions log).filterMap fun
    | .level l => some (l : Int)
    | .emitted | .dropped | .sinkErrors => none

-- The additions to the counters of one band; the counter of level 0 is not reported.
def bandTally (log : List (Event κ)) (k : Bytes) : Nat :=
  (levels log).countP fun l => 1 ≤ l ∧ l < 25 ∧ Level.string l = k

theorem bandTally_le (log : List (Event κ)) (k : Bytes) : bandTally log k ≤ (additions log).length :=
  List.countP_le_length.trans (List.length_filterMap_le _ _)

theorem count_levels (log : List (Event κ)) (n : Nat) :
    tally log (.level n) = (levels log).count (n : Int) := by
  rw [tally, levels]
  induction additions log with
  | nil => rfl
  | cons c cs ih =>
    cases c with
    | level l => simp [List.count_cons, ih]
    | _ => simpa [List.count_cons] using ih

theorem bandTotal_tallies (log : List (Event κ)) (k : Bytes) :
    bandTotal k 1 ((List.range 24).map fun n => tally log (.level (n + 1))) = bandTally log k := by
  rw [bandTotal_counts (levels log), bandTally]
  · simp
  · intro i hi
    rw [List.length_map, List.length_range] at hi
    rw [List.getElem?_map, List.getElem?_range hi, Option.map_some, count_levels, Nat.add_comm]

def taken : List UInt64 → Option Snapshot
  | e :: d :: x :: ls => some ⟨e, d, x, collect (fun _ => none) 1 ls⟩
  | _ => none

variable [DecidableEq ι] [DecidableEq κ]

def serve (s : State ι κ) (j : κ) (order : List (Bytes × UInt64)) (got : List UInt64) :
    Option (State ι κ × List (Event κ)) :=
  if got.length = cells.length then
    match taken got with
    | some snap =>
        if order.Perm (entries snap) then
          some ({ s with reader := Function.update s.reader j none },
            [.served j snap (serveHTTP snap order)])
        else none
    | none => none
  else none

def step (s : State ι κ) : Act ι κ → Option (State ι κ × List (Event κ))
  | .addEmitted i l =>
      match s.writer i with
      | none =>
          some ({ s with
            metrics := s.metrics.addEmitted, writer := Function.update s.writer i (some l) },
            [.add .emitted])
      | some _ => none
  | .addLevel i =>
      match s.writer i with
      | some l =>
          some ({ s with
            metrics := s.metrics.addLevel l, writer := Function.update s.writer i none },
            if 0 ≤ l ∧ l < s.metrics.byLevel.length then [.add (.level l.toNat)] else [])
      | none => none
  | .incDropped => some ({ s with metrics := s.metrics.incDropped }, [.add .dropped])
  | .incSinkError => some ({ s with metrics := s.metrics.incSinkError }, [.add .sinkErrors])
  | .snapshot j =>
      match s.reader j with
      | none => some ({ s with reader := Function.update s.reader j (some []) }, [.began j])
      | some _ => none
  | .load j =>
      match s.reader j with
      | some got =>
          match cells[got.length]? with
          | some c =>
              some ({ s with
                reader := Function.update s.reader j (some (got ++ [get s.metrics c])) }, [])
          | none => none
      | none => none
  | .serve j order =>
      match s.reader j with
      | some got => serve s j order got
      | none => none

def machine : Machine (State ι κ) (Act ι κ) (Event κ) where
  init := ⟨.new, fun _ => none, fun _ => none⟩
  step := step

inductive Step (s : State ι κ) : State ι κ → List (Event κ) → Prop
  | add (m : Metrics) (writer : ι → Option Level) (c : Cell)
      (hget : ∀ c', get m c' = get s.metrics c' + .ofNat (if c' = c then 1 else 0)) :
      Step s { s with metrics := m, writer := writer } [.add c]
  | skip (m : Metrics) (writer : ι → Option Level) (hm : m = s.metrics) :
      Step s { s with metrics := m, writer := writer } []
  | began (j : κ) (hj : s.reader j = none) :
      Step s { s with reader := Function.update s.reader j (some []) } [.began j]
  | load (j : κ) (got : List UInt64) (c : Cell) (hj : s.reader j = some got)
      (hc : cells[got.length]? = some c) :
      Step s { s with reader := Function.update s.reader j (some (got ++ [get s.metrics c])) } []
  | served (j : κ) (got : List UInt64) (snap : Snapshot) (order : List (Bytes × UInt64))
      (hj : s.reader j = some got) (hlen : got.length = cells.length)
      (hsnap : taken got = some snap) (horder : order.Perm (entries snap)) :
      Step s { s with reader := Function.update s.reader j none }
        [.served j snap (serveHTTP snap order)]

variable {s s' : State ι κ} {evs : List (Event κ)}

theorem get_new (c : Cell) : get .new c = 0 := by
  cases c with
  | level l =>
    rw [get, Metrics.new, List.getD_eq_getElem?_getD, List.getElem?_replicate]
    split <;> rfl
  | _ => rfl

theorem get_addLevel {m : Metrics} {l : Level} (h : 0 ≤ l ∧ l < m.byLevel.length) (c : Cell) :
    get (m.addLevel l) c = get m c + .ofNat (if c = .level l.toNat then 1 else 0) := by
  rw [addLevel, if_pos h]
  cases c with
  | level n =>
    have hn : l.toNat < m.byLevel.length := (Int.toNat_lt h.1).mpr h.2
    simp only [get, List.getD_eq_getElem?_getD, List.getElem?_modify, Cell.level.injEq]
    by_cases heq : n = l.toNat
    · subst heq
      simp [hn]
    · simp [heq, Ne.symm heq]
  | _ => simp [get]

omit [DecidableEq ι] in
theorem serve_cases {j : κ} {order : List (Bytes × UInt64)} {got : List UInt64}
    (hj : s.reader j = some got) (h : serve s j order got = some (s', evs)) : Step s s' evs := by
  unfold serve at h
  split at h
  next hlen =>
    split at h
    next snap hsnap =>
      split at h
      next horder =>
        cases h
        exact .served j got snap order hj hlen hsnap horder
      next => cases h
    next => cases h
  next => cases h

theorem step_cases {a : Act ι κ} (h : step s a = some (s', evs)) : Step s s' evs := by
  cases a with
  | addEmitted i l =>
    simp only [step] at h
    split at h
    next =>
      cases h
      exact .add _ _ .emitted fun c => by cases c <;> simp [get, addEmitted]
    next => cases h
  | addLevel i =>
    simp only [step] at h
    split at h
    next l hi =>
      by_cases hl : 0 ≤ l ∧ l < s.metrics.byLevel.length
      · rw [if_pos hl] at h
        cases h
        exact .add _ _ (.level l.toNat) (get_addLevel hl)
      · rw [if_neg hl] at h
        cases h
        exact .skip _ _ (by rw [addLevel, if_neg hl])
    next => cases h
  | incDropped =>
    cases h
    exact .add _ _ .dropped fun c => by cases c <;> simp [get, incDropped]
  | incSinkError =>
    cases h
    exact .add _ _ .sinkErrors fun c => by cases c <;> simp [get, incSinkError]
  | snapshot j =>
    simp only [step] at h
    split at h
    next hj =>
      cases h
      exact .began j hj
    next => cases h
  | load j =>
    simp only [step] at h
    split at h
    next got hj =>
      split at h
      next c hc =>
        cases h
        exact .load j got c hj hc
      next => cases h
    next => cases h
  | serve j order =>
    simp only [step] at h
    split at h
    next got hj => exact serve_cases hj h
    next => cases h

section Runs

variable {log : List (Event κ)} {j : κ}

theorem run_counts (h : (machine (ι := ι) (κ := κ)).Run log s) (c : Cell) :
    get s.metrics c = .ofNat (tally log c) := by
  refine h.invariant (P := fun log s => ∀ c, get s.metrics c = .ofNat (tally log c)) ?_ ?_ c
  · exact get_new
  intro log s a s' evs _ ih _ hs c
  rw [tally_append, ← Counter.add (ih c)]
  cases step_cases hs with
  | add m writer c' hget => rw [tally_add, ← hget c]
  | skip m writer hm =>
    rw [hm]
    exact (UInt64.add_zero _).symm
  | _ => exact (UInt64.add_zero _).symm

-- counts are the numbers of additions behind the values read so far.
theorem run_reading (h : (machine (ι := ι) (κ := κ)).Run log s) {got : List UInt64}
    (hj : s.reader j = some got) :
    ∃ before counts, Since log j before ∧ Scan (tally before) (tally log) cells counts ∧
      got = counts.map UInt64.ofNat := by
  refine h.invariant (P := fun log s => ∀ j got, s.reader j = some got →
    ∃ before counts, Since log j before ∧ Scan (tally before) (tally log) cells counts ∧
      got = counts.map UInt64.ofNat) ?_ ?_ j got hj
  · intro j got hj
    cases hj
  intro log s a s' evs hexec ih _ hs j got hj
  have hother (hj : s.reader j = some got) (hevs : ∀ e ∈ evs, e.request ≠ some j) :
      ∃ before counts, Since (log ++ evs) j before ∧
        Scan (tally before) (tally (log ++ evs)) cells counts ∧ got = counts.map UInt64.ofNat := by
    obtain ⟨before, counts, hsince, hscan, hgot⟩ := ih j got hj
    exact ⟨before, counts, hsince.append hevs, hscan.mono (tally_le_append log evs), hgot⟩
  cases step_cases hs with
  | add m writer c hget => exact hother hj (by simp [Event.request])
  | skip m writer hm => exact hother hj (by simp)
  | began k hk =>
    by_cases hjk : j = k
    · subst hjk
      obtain rfl : [] = got := by simpa using hj
      exact ⟨log, [], .start log j, .start, rfl⟩
    · exact hother (by simpa [hjk] using hj) (by simpa [Event.request] using Ne.symm hjk)
  | load k got' c hk hc =>
    by_cases hjk : j = k
    · subst hjk
      obtain rfl : got' ++ [get s.metrics c] = got := by simpa using hj
      obtain ⟨before, counts, hsince, hscan, rfl⟩ := ih j got' hk
      rw [List.length_map] at hc
      refine ⟨before, counts ++ [tally log c], ?_, ?_, ?_⟩
      · rwa [List.append_nil]
      · rw [List.append_nil]
        exact hscan.read hc (hsince.tally_le c)
      · rw [run_counts hexec c, List.map_append, List.map_singleton]
    · exact hother (by simpa [hjk] using hj) (by simp)
  | served k got' snap order hk =>
    by_cases hjk : j = k
    · subst hjk
      simp at hj
    · exact hother (by simpa [hjk] using hj) (by simpa [Event.request] using Ne.symm hjk)

-- A response shows each counter as it was at some time since its request began.
def Answers (log : List (Event κ)) (j : κ) (snap : Snapshot) (body : Bytes) : Prop :=
  ∃ before counts order, Since log j before ∧
    List.Forall₂ (fun c n => tally before c ≤ n ∧ n ≤ tally log c) cells counts ∧
    taken (counts.map UInt64.ofNat) = some snap ∧ order.Perm (entries snap) ∧
    body = serveHTTP snap order

theorem run_served (h : (machine (ι := ι) (κ := κ)).Run log s) {front back : List (Event κ)}
    {snap : Snapshot} {body : Bytes} (hlog : log = front ++ .served j snap body :: back) :
    Answers front j snap body := by
  refine h.invariant (P := fun log _ => ∀ front back, log = front ++ .served j snap body :: back →
    Answers front j snap body) ?_ ?_ front back hlog
  · intro front back hlog
    simp at hlog
  intro log s a s' evs hexec ih _ hs front back hlog
  cases step_cases hs with
  | skip => exact ih front back (by simpa using hlog)
  | load => exact ih front back (by simpa using hlog)
  | add m writer c hget =>
    rcases split_concat hlog with ⟨-, hnew⟩ | ⟨rest, hold⟩
    · cases hnew
    · exact ih front rest hold
  | began k hk =>
    rcases split_concat hlog with ⟨-, hnew⟩ | ⟨rest, hold⟩
    · cases hnew
    · exact ih front rest hold
  | served k got snap order hk hlen hsnap horder =>
    rcases split_concat hlog with ⟨rfl, hnew⟩ | ⟨rest, hold⟩
    · cases hnew
      obtain ⟨before, counts, hsince, hscan, rfl⟩ := run_reading hexec hk
      rw [List.length_map] at hlen
      exact ⟨before, counts, order, hsince, hscan.full hlen, hsnap, horder, rfl⟩
    · exact ih front rest hold

end Runs

-- Each reported number lies between what had been added at two points of the log.
structure Within (lo hi : List (Event κ)) (snap : Snapshot) : Prop where
  emitted : tally lo .emitted ≤ snap.emitted.toNat ∧ snap.emitted.toNat ≤ tally hi .emitted
  dropped : tally lo .dropped ≤ snap.dropped.toNat ∧ snap.dropped.toNat ≤ tally hi .dropped
  sinkErrors : tally lo .sinkErrors ≤ snap.sinkErrors.toNat ∧
    snap.sinkErrors.toNat ≤ tally hi .sinkErrors
  byLevel : ∀ k, bandTally lo k ≤ ((snap.byLevel k).getD 0).toNat ∧
    ((snap.byLevel k).getD 0).toNat ≤ bandTally hi k

structure NoMore (earlier later : Snapshot) : Prop where
  emitted : earlier.emitted ≤ later.emitted
  dropped : earlier.dropped ≤ later.dropped
  sinkErrors : earlier.sinkErrors ≤ later.sinkErrors
  byLevel : ∀ k, (earlier.byLevel k).getD 0 ≤ (later.byLevel k).getD 0

section Results

omit [DecidableEq κ]

variable {lo hi : List (Event κ)} {counts : List Nat} {got : List UInt64} {snap : Snapshot}

theorem collect_getD (vs : List UInt64) (k : Bytes) :
    (collect (fun _ => none) 1 vs k).getD 0 = .ofNat (bandTotal k 1 (vs.map UInt64.toNat)) := by
  rw [collect_apply]
  split
  next hzero =>
    rw [hzero]
    rfl
  next => exact UInt64.zero_add _

theorem bandTally_le_append (log evs : List (Event κ)) (k : Bytes) :
    bandTally log k ≤ bandTally (log ++ evs) k := by
  rw [bandTally, bandTally, levels, levels, additions, additions, List.filterMap_append,
    List.filterMap_append, List.countP_append]
  exact Nat.le_add_right _ _

theorem toNat_tally (hbound : (additions hi).length < 2 ^ 64) {c : Cell} {n : Nat}
    (hn : n ≤ tally hi c) : (UInt64.ofNat n).toNat = n :=
  UInt64.toNat_ofNat_of_lt' (hn.trans_lt ((tally_le hi c).trans_lt hbound))

theorem toNat_scan (hbound : (additions hi).length < 2 ^ 64) {cs : List Cell}
    (h : List.Forall₂ (fun c n => tally lo c ≤ n ∧ n ≤ tally hi c) cs counts) :
    (counts.map UInt64.ofNat).map UInt64.toNat = counts := by
  induction h with
  | nil => rfl
  | cons hn _ ih => rw [List.map_cons, List.map_cons, toNat_tally hbound hn.2, ih]

theorem within_of_scan
    (h : List.Forall₂ (fun c n => tally lo c ≤ n ∧ n ≤ tally hi c) cells counts)
    (hbound : (additions hi).length < 2 ^ 64)
    (hsnap : taken (counts.map UInt64.ofNat) = some snap) : Within lo hi snap := by
  cases h with
  | cons he h =>
    cases h with
    | cons hd h =>
      cases h with
      | @cons _ x _ ls hx h =>
        obtain rfl := Option.some.inj hsnap
        refine ⟨by rwa [toNat_tally hbound he.2], by rwa [toNat_tally hbound hd.2],
          by rwa [toNat_tally hbound hx.2], fun k => ?_⟩
        rw [collect_getD, toNat_scan hbound h]
        rw [List.forall₂_map_left_iff] at h
        have hlo : bandTally lo k ≤ bandTotal k 1 ls := by
          rw [← bandTotal_tallies lo]
          refine bandTotal_le ?_ 1
          rw [List.forall₂_map_left_iff]
          exact h.imp fun _ _ hv => hv.1
        have hhi : bandTotal k 1 ls ≤ bandTally hi k := by
          rw [← bandTotal_tallies hi]
          refine bandTotal_le ?_ 1
          rw [List.forall₂_map_right_iff]
          exact (h.imp fun _ _ hv => hv.2).flip
        rw [UInt64.toNat_ofNat_of_lt' (hhi.trans_lt ((bandTally_le hi k).trans_lt hbound))]
        exact ⟨hlo, hhi⟩

theorem taken_byLevel (h : taken got = some snap) :
    ∃ vs, snap.byLevel = collect (fun _ => none) 1 vs := by
  match got with
  | e :: d :: x :: ls => exact ⟨ls, (Option.some.inj h) ▸ rfl⟩

theorem Within.noMore {hi' mid : List (Event κ)} {snap' : Snapshot} (h : Within lo hi snap)
    (h' : Within (hi ++ mid) hi' snap') : NoMore snap snap' where
  emitted := h.emitted.2.trans ((tally_le_append hi mid _).trans h'.emitted.1)
  dropped := h.dropped.2.trans ((tally_le_append hi mid _).trans h'.dropped.1)
  sinkErrors := h.sinkErrors.2.trans ((tally_le_append hi mid _).trans h'.sinkErrors.1)
  byLevel k := (h.byLevel k).2.trans ((bandTally_le_append hi mid k).trans (h'.byLevel k).1)

end Results

theorem scrape_shows_counters {log front back : List (Event κ)} {j : κ} {snap : Snapshot}
    {body : Bytes} (h : (machine (ι := ι) (κ := κ)).Run log s)
    (hbound : (additions log).length < 2 ^ 64)
    (hlog : log = front ++ .served j snap body :: back) :
    ∃ before order, Since front j before ∧ Within before front snap ∧
      (∀ front' back' j' snap' body', before = front' ++ .served j' snap' body' :: back' →
        NoMore snap' snap) ∧
      (order.map Prod.fst).Nodup ∧ (∀ k v, (k, v) ∈ order ↔ snap.byLevel k = some v) ∧
      Json.parse body = some (value snap order) := by
  have hshort {front back : List (Event κ)} (hlog : log = front ++ back) :
      (additions front).length < 2 ^ 64 := by
    rw [hlog] at hbound
    exact (additions_le_append front back).trans_lt hbound
  obtain ⟨before, counts, order, hsince, hscan, hsnap, horder, rfl⟩ := run_served h hlog
  have hwithin := within_of_scan hscan (hshort hlog) hsnap
  refine ⟨before, order, hsince, hwithin, ?_, ?_, ?_, ?_⟩
  · rintro front' back' j' snap' body' rfl
    obtain ⟨during, rfl, -⟩ := hsince
    have hearlier := hlog.trans (by simp only [List.append_assoc, List.cons_append]; rfl)
    obtain ⟨before', counts', order', -, hscan', hsnap', -, -⟩ := run_served h hearlier
    exact (within_of_scan hscan' (hshort hearlier) hsnap').noMore hwithin
  · exact (horder.map Prod.fst).nodup_iff.mpr (entries_nodup snap)
  · obtain ⟨vs, hvs⟩ := taken_byLevel hsnap
    exact fun k v => horder.mem_iff.trans (mem_entries hvs)
  · exact serveHTTP_parse snap fun kv hkv => entries_band (horder.mem_iff.mp hkv)

-- A log call and a drop overlap the request; the drop comes too late to be seen.
def overlapped : List (Act Unit Unit) :=
  [.addEmitted () 9, .snapshot (), .load (), .load (), .incDropped, .addLevel ()] ++
    List.replicate 25 (.load ()) ++ [.serve () [(ascii "INFO", 1)]]

def overlappedBody : Bytes :=
  ascii "\x7b\"emitted\":1,\"dropped\":0,\"sink_errors\":0,\"by_level\":\x7b\"INFO\":1\x7d\x7d\n"

theorem scrape_shows_counters_overlapped :
    ∃ (log : List (Event Unit)) (s : State Unit Unit), machine.Run log s ∧
      ∃ front back snap body, log = front ++ .served () snap body :: back ∧
        body = overlappedBody ∧
        ∃ before, Within before front snap := by
  obtain ⟨log, s, hrun, hgood⟩ := Machine.exists_exec (M := machine (ι := Unit) (κ := Unit))
    (C := fun _ _ => True) overlapped
    (fun log _ => decide ((additions log).length < 2 ^ 64) && log.any fun
      | .served _ _ body => body == overlappedBody
      | _ => false) (by decide +kernel)
  obtain ⟨hbound, hany⟩ := Bool.and_eq_true_iff.mp hgood
  obtain ⟨e, he, hbody⟩ := List.any_eq_true.mp hany
  cases e with
  | served j snap body =>
    obtain ⟨front, back, rfl⟩ := List.append_of_mem he
    obtain ⟨before, order, -, hwithin, -⟩ := scrape_shows_counters hrun (of_decide_eq_true hbound) rfl
    exact ⟨_, s, hrun, front, back, snap, body, rfl, beq_iff_eq.mp hbody, before, hwithin⟩
  | add c => cases hbody
  | began j => cases hbody

end Scrape

end UbgoLogger
