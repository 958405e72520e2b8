import UbgoLogger.Core.Slog
import UbgoLogger.Foundation.InPlace
import UbgoLogger.Pipeline.Redact

namespace UbgoLogger
open Foundation Foundation.Slices Foundation.Text

variable {π χ υ : Type}

def hashValue (sha256 : Bytes → Bytes) (sprint : Boxed χ → Bytes) (localOffset : Int → Int)
    (f : Field χ) : Bytes :=
  let s := if f.knd = .string then f.str else sprint (f.value localOffset)
  ascii "sha256:" ++ encodeHex ((sha256 s).take 8)

namespace PathRedactor

-- Process on the backing array of r.Fields
def processInPlace (grow : Nat → Nat → Nat) (hashValue : Field χ → Bytes) (pr : PathRedactor)
    (st : Store (Field χ)) (fields : Slices.Slice) : Store (Field χ) × Slices.Slice :=
  st.compact grow (pr.redactField hashValue) fields

end PathRedactor

-- The segments of a pattern up to the first **.
def leading (pat : Bytes) : List Bytes := (splitDots pat).takeWhile (· ≠ ascii "**")

def Covers (pat key : Bytes) : Prop :=
  (∀ i < (leading pat).length,
    (leading pat)[i]? = some (ascii "*") ∨ (leading pat)[i]? = (splitDots key)[i]?) ∧
  if ascii "**" ∈ splitDots pat then (leading pat).length ≤ (splitDots key).length
  else (leading pat).length = (splitDots key).length

instance (pat key : Bytes) : Decidable (Covers pat key) :=
  inferInstanceAs (Decidable (_ ∧ _))

theorem segMatch_iff (pat key : List Bytes) :
    segMatch pat key = true ↔
      (∀ i < (pat.takeWhile (· ≠ ascii "**")).length,
        (pat.takeWhile (· ≠ ascii "**"))[i]? = some (ascii "*") ∨
          (pat.takeWhile (· ≠ ascii "**"))[i]? = key[i]?) ∧
      if ascii "**" ∈ pat then (pat.takeWhile (· ≠ ascii "**")).length ≤ key.length
      else (pat.takeWhile (· ≠ ascii "**")).length = key.length := by
  induction pat generalizing key with
  | nil => cases key <;> simp [segMatch]
  | cons p pat ih =>
    by_cases hp : p = ascii "**"
    · simp [segMatch, hp]
    · have hmem : ascii "**" ∈ p :: pat ↔ ascii "**" ∈ pat := by simp [Ne.symm hp]
      rw [List.takeWhile_cons_of_pos (by simpa using hp)]
      simp only [hmem, List.length_cons, Nat.forall_lt_succ_left]
      cases key with
      | nil => simp [segMatch, hp]
      | cons k key => simp [segMatch, hp, ih, and_assoc]

namespace PathRedactor

variable {pr : PathRedactor} {hashValue : Field χ → Bytes}

theorem matchesKey_iff (strategy : RedactStrategy) (censor : Bytes) (patterns : List Bytes)
    (key : Bytes) : (newPathRedactor strategy censor patterns).matchesKey key = true ↔
      ∃ pat ∈ patterns, Covers pat key := by
  simp only [matchesKey, newPathRedactor, List.any_map, List.any_eq_true, Function.comp_apply,
    segMatch_iff, Covers, leading]

theorem redactField_key {f g : Field χ} (h : pr.redactField hashValue f = some g) :
    g.key = f.key := by
  unfold redactField at h
  split at h
  · cases hs : pr.strategy <;> rw [hs] at h <;> cases h <;> rfl
  · cases h
    rfl

theorem redactField_fixed (hs : pr.strategy ≠ .hash) {f g : Field χ}
    (h : pr.redactField hashValue f = some g) : pr.redactField hashValue g = some g := by
  by_cases hm : pr.matchesKey f.key = true
  · exact (redactField_eq_of_key hs (redactField_key h).symm hm).symm.trans h
  · obtain rfl : f = g := by simpa [redactField, hm] using h
    exact h

theorem filterMap_redactField_idem (hs : pr.strategy ≠ .hash) (fs : List (Field χ)) :
    (fs.filterMap (pr.redactField hashValue)).filterMap (pr.redactField hashValue) =
      fs.filterMap (pr.redactField hashValue) := by
  rw [List.filterMap_filterMap]
  refine List.filterMap_congr fun f _ => ?_
  cases h : pr.redactField hashValue f with
  | none => rfl
  | some g => exact redactField_fixed hs h

-- The same fields but for the values of the matching ones.
def SameElsewhere (pr : PathRedactor) (fs gs : List (Field χ)) : Prop :=
  List.Forall₂ (fun f g => f = g ∨ f.key = g.key ∧ pr.matchesKey f.key = true) fs gs

theorem filterMap_redactField_congr (hs : pr.strategy ≠ .hash) {fs gs : List (Field χ)}
    (h : pr.SameElsewhere fs gs) :
    fs.filterMap (pr.redactField hashValue) = gs.filterMap (pr.redactField hashValue) := by
  induction h with
  | nil => rfl
  | cons hfg _ ih =>
    have hhead : pr.redactField hashValue _ = pr.redactField hashValue _ :=
      hfg.elim (congrArg _) fun h => redactField_eq_of_key hs h.1 h.2
    rw [List.filterMap_cons, List.filterMap_cons, hhead, ih]

theorem processInPlace_eq (grow : Nat → Nat → Nat) {st : Store (Field χ)} {s : Slices.Slice}
    (h : st.Valid s) : pr.processInPlace grow hashValue st s =
      st.overwrite s.arr ((st.view s).filterMap (pr.redactField hashValue)) :=
  Store.compact_eq grow _ h

theorem processInPlace_idem (grow : Nat → Nat → Nat) (hs : pr.strategy ≠ .hash)
    {st : Store (Field χ)} {s : Slices.Slice} (h : st.Valid s) :
    pr.processInPlace grow hashValue (pr.processInPlace grow hashValue st s).1
        (pr.processInPlace grow hashValue st s).2 =
      pr.processInPlace grow hashValue st s := by
  rw [processInPlace_eq grow h, processInPlace_eq grow (Store.valid_overwrite h.arr_lt),
    Store.view_overwrite h.arr_lt, filterMap_redactField_idem hs]
  exact Store.overwrite_overwrite h.arr_lt

end PathRedactor

-- What a redactor is for, over the patterns as they are written.
def redacted (strategy : RedactStrategy) (censor : Bytes) (patterns : List Bytes)
    (hashValue : Field χ → Bytes) (f : Field χ) : Option (Field χ) :=
  if ∃ pat ∈ patterns, Covers pat f.key then
    match strategy with
    | .mask => some (stringField f.key (if censor = [] then ascii "[REDACTED]" else censor))
    | .hash => some (stringField f.key (hashValue f))
    | .drop => none
  else some f

theorem redactField_eq_redacted (strategy : RedactStrategy) (censor : Bytes) (patterns : List Bytes)
    (hashValue : Field χ → Bytes) :
    (newPathRedactor strategy censor patterns).redactField hashValue =
      redacted strategy censor patterns hashValue := by
  funext f
  simp only [PathRedactor.redactField, PathRedactor.matchesKey_iff, redacted]
  cases strategy <;> rfl

theorem pathRedactor_exact (grow : Nat → Nat → Nat) (sha256 : Bytes → Bytes)
    (sprint : Boxed χ → Bytes) (localOffset : Int → Int) (strategy : RedactStrategy)
    (censor : Bytes) (patterns : List Bytes) :
    let pr := newPathRedactor strategy censor patterns
    let hash := hashValue sha256 sprint localOffset
    (∀ key, pr.matchesKey key = true ↔ ∃ pat ∈ patterns, Covers pat key) ∧
    ∀ (st : Store (Field χ)) (s : Slices.Slice), st.Valid s →
      let q := pr.processInPlace grow hash st s
      q.2.arr = s.arr ∧ (∀ a, a ≠ s.arr → q.1.array a = st.array a) ∧
      q.1.view q.2 = (st.view s).filterMap (redacted strategy censor patterns hash) ∧
      (∀ (p : π) (ctx : Context χ υ) (r : Rec χ υ), r.fields = st.view s →
        pr.process hash p ctx r = (p, some { r with fields := q.1.view q.2 })) ∧
      (strategy ≠ .hash →
        (∀ (st' : Store (Field χ)) (s' : Slices.Slice), st'.Valid s' →
          pr.SameElsewhere (st.view s) (st'.view s') →
          (pr.processInPlace grow hash st' s').1.view (pr.processInPlace grow hash st' s').2 =
            q.1.view q.2) ∧
        pr.processInPlace grow hash q.1 q.2 = q) := by
  intro pr hash
  refine ⟨PathRedactor.matchesKey_iff strategy censor patterns, fun st s hst => ?_⟩
  intro q
  have hq : q = st.overwrite s.arr ((st.view s).filterMap (pr.redactField hash)) :=
    PathRedactor.processInPlace_eq grow hst
  have hview : q.1.view q.2 = (st.view s).filterMap (pr.redactField hash) := by
    rw [hq, Store.view_overwrite hst.arr_lt]
  refine ⟨by rw [hq]; rfl, fun a ha => ?_, ?_, fun p ctx r hr => ?_, fun hs => ⟨?_, ?_⟩⟩
  · rw [hq]
    exact st.array_write_of_ne _ ha
  · rw [hview, redactField_eq_redacted]
  · rw [hview, ← hr]
    rfl
  · intro st' s' hst' hsame
    rw [hview, PathRedactor.processInPlace_eq grow hst', Store.view_overwrite hst'.arr_lt]
    exact (PathRedactor.filterMap_redactField_congr hs hsame).symm
  · exact PathRedactor.processInPlace_idem grow hs hst

def signup : List (Field Unit) :=
  [stringField (ascii "password") (ascii "hunter2"),
    stringField (ascii "user.password") (ascii "hunter2"),
    stringField (ascii "req.user.password") (ascii "hunter2"),
    stringField (ascii "user.name") (ascii "ada")]

def signupStore : Store (Field Unit) := ⟨[[], signup]⟩

def dropSignup : Store (Field Unit) × Slices.Slice :=
  (newPathRedactor .drop [] [ascii "*.password"]).processInPlace (fun _ _ => 0)
    (hashValue id (fun _ => []) id) signupStore ⟨1, 4⟩

theorem pathRedactor_exact_signup :
    signupStore.Valid ⟨1, 4⟩ ∧
    dropSignup.1.view dropSignup.2 = [stringField (ascii "password") (ascii "hunter2"),
      stringField (ascii "req.user.password") (ascii "hunter2"),
      stringField (ascii "user.name") (ascii "ada")] := by
  have hvalid : signupStore.Valid ⟨1, 4⟩ := ⟨by decide, by decide⟩
  obtain ⟨-, hexact⟩ := pathRedactor_exact (π := Unit) (υ := Unit) (fun _ _ => 0) id
    (fun _ : Boxed Unit => []) id .drop [] [ascii "*.password"]
  exact ⟨hvalid, (hexact signupStore ⟨1, 4⟩ hvalid).2.2.1.trans (by decide)⟩

section AnyDepth

variable (strategy : RedactStrategy) (censor s : Bytes)

def anyDepth : PathRedactor := newPathRedactor strategy censor [ascii "*." ++ s]

-- A field under the name s that redaction has to change.
def Secret (f : Field χ) : Prop :=
  (splitDots f.key).getLast? = some s ∧
    (strategy = .mask → f ≠ stringField f.key (anyDepth strategy censor s).censor)

instance [DecidableEq χ] (f : Field χ) : Decidable (Secret strategy censor s f) :=
  inferInstanceAs (Decidable (_ ∧ _))

theorem splitDots_anyDepth {s : Bytes} (hdot : 0x2e ∉ s) : splitDots (ascii "*." ++ s) = [ascii "*", s] := by
  have hfree : ∀ l ∈ [ascii "*", s], (0x2e : Byte) ∉ l := by
    simpa [hdot] using (by decide : (0x2e : Byte) ∉ ascii "*")
  have hjoin : ascii "*." ++ s = [0x2e].intercalate [ascii "*", s] := by
    rw [(by decide : ascii "*." = ascii "*" ++ [0x2e])]
    simp [List.intercalate]
  rw [splitDots, hjoin, List.splitOn_intercalate 0x2e hfree (List.cons_ne_nil _ _)]

theorem anyDepth_matchesKey {s : Bytes} (hdot : 0x2e ∉ s) (hstar : 0x2a ∉ s) (key : Bytes) :
    (anyDepth strategy censor s).matchesKey key = true ↔
      (splitDots key).getLast? = some s ∧ (splitDots key).length = 2 := by
  have hne : ∀ {t : Bytes}, 0x2a ∈ t → s ≠ t := fun ht hst => hstar (hst ▸ ht)
  have hone : s ≠ ascii "*" := hne (by decide)
  have htwo : s ≠ ascii "**" := hne (by decide)
  have hsplit : (anyDepth strategy censor s).matchesKey key =
      segMatch [ascii "*", s] (splitDots key) := by
    simp [PathRedactor.matchesKey, anyDepth, newPathRedactor, splitDots_anyDepth hdot]
  have hstars : ascii "*" ≠ ascii "**" := by decide
  rw [hsplit]
  rcases splitDots key with - | ⟨a, - | ⟨b, - | ⟨c, t⟩⟩⟩
  · simp [segMatch, hstars]
  · simp [segMatch, hstars, htwo]
  · simp [segMatch, hstars, hone, htwo, eq_comm (a := b)]
  · simp [segMatch, hstars, htwo]

theorem anyDepth_iff (hs : strategy ≠ .hash) (hdot : 0x2e ∉ s) (hstar : 0x2a ∉ s)
    (hashValue : Field χ → Bytes) (p : π) (ctx : Context χ υ) (r : Rec χ υ) :
    (∃ r', (anyDepth strategy censor s).process hashValue p ctx r = (p, some r') ∧
      ∀ f ∈ r.fields, Secret strategy censor s f → f ∉ r'.fields) ↔
    ∀ f ∈ r.fields, Secret strategy censor s f → (splitDots f.key).length = 2 := by
  have hmatch := anyDepth_matchesKey strategy censor hdot hstar
  constructor
  · rintro ⟨r', hr', hgone⟩ f hf hsecret
    cases hr'
    by_contra hlen
    refine hgone f hf hsecret (List.mem_filterMap.mpr ⟨f, hf, if_neg ?_⟩)
    rw [hmatch]
    exact fun h => hlen h.2
  · intro hlen
    refine ⟨_, rfl, fun f hf hsecret hout => ?_⟩
    obtain ⟨g, -, hg⟩ := List.mem_filterMap.mp hout
    have hm : (anyDepth strategy censor s).matchesKey g.key = true := by
      rw [hmatch, ← PathRedactor.redactField_key hg]
      exact ⟨hsecret.1, hlen f hf hsecret⟩
    rw [PathRedactor.redactField, if_pos hm] at hg
    cases strategy with
    | mask =>
      obtain rfl := Option.some.inj hg
      exact hsecret.2 rfl rfl
    | hash => exact hs rfl
    | drop => cases hg

def signupRecord (fields : List (Field Unit)) : Rec Unit Unit where
  time := Time.epoch
  level := Level.info
  message := ascii "signup"
  pc := 0
  eventName := []
  fields := fields
  ctx := some Context.background

theorem anyDepth_iff_two_segments :
    ∃ r', (anyDepth .mask [] (ascii "password")).process (fun _ => []) () Context.background
        (signupRecord [stringField (ascii "user.password") (ascii "hunter2")]) = ((), some r') ∧
      stringField (ascii "user.password") (ascii "hunter2") ∉ r'.fields := by
  obtain ⟨r', hr', hgone⟩ := (anyDepth_iff .mask [] (ascii "password") (by decide) (by decide)
    (by decide) (fun _ => []) () Context.background
    (signupRecord [stringField (ascii "user.password") (ascii "hunter2")])).mpr (by decide)
  exact ⟨r', hr', hgone _ (List.mem_singleton_self _) (by decide)⟩

theorem any_depth_pattern_leaks :
    (0x2e ∉ ascii "password" ∧ 0x2a ∉ ascii "password") ∧
    ∃ r', (anyDepth .mask [] (ascii "password")).process (fun _ => []) () Context.background
        (signupRecord signup) = ((), some r') ∧
      ∀ key ∈ [ascii "password", ascii "req.user.password"],
        Secret .mask [] (ascii "password") (stringField key (ascii "hunter2") : Field Unit) ∧
        stringField key (ascii "hunter2") ∈ (signupRecord signup).fields ∧
        stringField key (ascii "hunter2") ∈ r'.fields :=
  ⟨by decide, _, rfl, by decide⟩

end AnyDepth

end UbgoLogger
