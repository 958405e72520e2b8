import UbgoLogger.Pipeline.RedactPaths

namespace UbgoLogger
open Foundation Foundation.Slices Foundation.Text

variable {π χ υ : Type}

structure RedactProcessor where
  deny : List Bytes
  censor : Bytes

def newRedactProcessor (keys : List Bytes) : RedactProcessor where
  deny := keys
  censor := ascii "[REDACTED]"

namespace RedactProcessor

-- What is assigned to the field's place, if anything.
def denied (p : RedactProcessor) (f : Field χ) : Option (Field χ) :=
  let c := if p.censor = [] then ascii "[REDACTED]" else p.censor
  if f.key ∈ p.deny then some (stringField f.key c) else none

def process (p : RedactProcessor) : Processor π χ υ :=
  fun st _ r => (st, some { r with fields := r.fields.map fun f => (p.denied f).getD f })

-- Process on the backing array of r.Fields
def processInPlace (p : RedactProcessor) (st : Store (Field χ)) (fields : Slices.Slice) :
    Store (Field χ) :=
  st.replace p.denied fields

theorem view_processInPlace (p : RedactProcessor) {st : Store (Field χ)} {s : Slices.Slice}
    (h : st.Valid s) :
    (p.processInPlace st s).view s = (st.view s).map fun f => (p.denied f).getD f := by
  have hlen : ((st.view s).map fun f => (p.denied f).getD f).length = s.len := by
    rw [List.length_map, h.length_view]
  rw [processInPlace, Store.replace_eq _ h]
  exact Store.view_of_array (Store.array_overwrite h.arr_lt) hlen

end RedactProcessor

-- No segment of the key is a wildcard.
def Plain (key : Bytes) : Prop := ∀ seg ∈ splitDots key, seg ≠ ascii "*" ∧ seg ≠ ascii "**"

instance (key : Bytes) : Decidable (Plain key) :=
  inferInstanceAs (Decidable (∀ seg ∈ splitDots key, seg ≠ ascii "*" ∧ seg ≠ ascii "**"))

theorem splitDots_injective : Function.Injective splitDots :=
  Function.LeftInverse.injective (g := List.intercalate [0x2e]) fun _ =>
    List.intercalate_splitOn 0x2e

theorem segMatch_plain {pat : List Bytes}
    (h : ∀ seg ∈ pat, seg ≠ ascii "*" ∧ seg ≠ ascii "**") (key : List Bytes) :
    segMatch pat key = true ↔ pat = key := by
  induction pat generalizing key with
  | nil => cases key <;> simp [segMatch]
  | cons p pat ih =>
    obtain ⟨⟨hstar, hstars⟩, hpat⟩ := List.forall_mem_cons.mp h
    cases key with
    | nil => simp [segMatch, hstars]
    | cons k key => simp [segMatch, hstar, hstars, ih hpat]

theorem matchesKey_plain {keys : List Bytes} (h : ∀ k ∈ keys, Plain k) (strategy : RedactStrategy)
    (censor key : Bytes) :
    (newPathRedactor strategy censor keys).matchesKey key = true ↔ key ∈ keys := by
  simp only [PathRedactor.matchesKey, newPathRedactor, List.any_map, List.any_eq_true,
    Function.comp_apply]
  constructor
  · rintro ⟨k, hk, hmatch⟩
    obtain rfl := splitDots_injective ((segMatch_plain (h k hk) _).mp hmatch)
    exact hk
  · exact fun hk => ⟨key, hk, (segMatch_plain (h key hk) _).mpr rfl⟩

theorem redactField_plain {keys : List Bytes} (h : ∀ k ∈ keys, Plain k)
    (hashValue : Field χ → Bytes) (f : Field χ) :
    (newPathRedactor .mask [] keys).redactField hashValue f =
      some (((newRedactProcessor keys).denied f).getD f) := by
  have hcensor : ascii "[REDACTED]" ≠ [] := by decide
  by_cases hk : f.key ∈ keys
  · rw [PathRedactor.redactField, if_pos ((matchesKey_plain h .mask [] f.key).mpr hk)]
    simp [RedactProcessor.denied, newRedactProcessor, newPathRedactor, hk, hcensor]
  · rw [PathRedactor.redactField, if_neg (mt (matchesKey_plain h .mask [] f.key).mp hk)]
    simp [RedactProcessor.denied, newRedactProcessor, hk]

theorem denylist_agrees (keys : List Bytes) (h : ∀ k ∈ keys, Plain k)
    (hashValue : Field χ → Bytes) :
    (∀ (p : π) (ctx : Context χ υ) (r : Rec χ υ),
      (newRedactProcessor keys).process p ctx r =
        (newPathRedactor .mask [] keys).process hashValue p ctx r) ∧
    ∀ (grow : Nat → Nat → Nat) (st : Store (Field χ)) (s : Slices.Slice), st.Valid s →
      (∀ (p : π) (ctx : Context χ υ) (r : Rec χ υ), r.fields = st.view s →
        (newRedactProcessor keys).process p ctx r =
          (p, some { r with fields := ((newRedactProcessor keys).processInPlace st s).view s })) ∧
      ((newRedactProcessor keys).processInPlace st s, s) =
        (newPathRedactor .mask [] keys).processInPlace grow hashValue st s := by
  have hfields : ∀ fs : List (Field χ),
      fs.filterMap ((newPathRedactor .mask [] keys).redactField hashValue) =
        fs.map fun f => ((newRedactProcessor keys).denied f).getD f := by
    intro fs
    rw [funext (redactField_plain h hashValue), List.filterMap_eq_map']
  refine ⟨fun p ctx r => ?_, fun grow st s hst => ⟨fun p ctx r hr => ?_, ?_⟩⟩
  · rw [RedactProcessor.process, PathRedactor.process, hfields]
  · rw [RedactProcessor.view_processInPlace _ hst, ← hr]
    rfl
  · have hlen : ((st.view s).map fun f => ((newRedactProcessor keys).denied f).getD f).length =
        s.len := by
      rw [List.length_map, hst.length_view]
    rw [PathRedactor.processInPlace_eq grow hst, hfields, RedactProcessor.processInPlace,
      Store.replace_eq _ hst]
    exact Prod.ext rfl (congrArg (Slices.Slice.mk s.arr) hlen.symm)

theorem denylist_agrees_dotted :
    (∀ k ∈ [ascii "token", ascii "a..b", []], Plain k) ∧
    (newRedactProcessor [ascii "token", ascii "a..b", []]).process () Context.background
        (signupRecord [stringField (ascii "a..b") (ascii "x")]) =
      (newPathRedactor .mask [] [ascii "token", ascii "a..b", []]).process (fun _ => []) ()
        Context.background (signupRecord [stringField (ascii "a..b") (ascii "x")]) :=
  ⟨by decide, (denylist_agrees [ascii "token", ascii "a..b", []] (by decide) (fun _ => [])).1 ()
    Context.background (signupRecord [stringField (ascii "a..b") (ascii "x")])⟩

end UbgoLogger
