import UbgoLogger.Core.Logger

namespace UbgoLogger
open Foundation.Text

-- An extractor gives the trace and the span id, or none where ok is false.
structure EnrichProcessor (χ υ : Type) where
  extractors : List (Context χ υ → Option (Bytes × Bytes))
  traceKey : Bytes
  spanKey : Bytes

namespace EnrichProcessor

variable {π χ υ : Type}

def new (extractors : List (Context χ υ → Option (Bytes × Bytes))) : EnrichProcessor χ υ :=
  ⟨extractors, ascii "trace_id", ascii "span_id"⟩

variable (e : EnrichProcessor χ υ)

def tk : Bytes := if e.traceKey = [] then ascii "trace_id" else e.traceKey

def sk : Bytes := if e.spanKey = [] then ascii "span_id" else e.spanKey

-- The loop over the extractors stops at the first one that answers.
def extract (ctx : Context χ υ) : Option (Bytes × Bytes) := e.extractors.findSome? fun ex => ex ctx

def traceFields (ctx : Context χ υ) : List (Field χ) :=
  match e.extract ctx with
  | none => []
  | some (tid, sid) =>
      (if tid = [] then [] else [stringField e.tk tid]) ++
        if sid = [] then [] else [stringField e.sk sid]

def process (ctx : Option (Context χ υ)) (r : Rec χ υ) : Rec χ υ :=
  match ctx.or r.ctx with
  | none => r
  | some ctx => { r with fields := r.fields ++ ctx.ctxFields ++ e.traceFields ctx }

def processor : Processor π χ υ := fun st ctx r => (st, some (e.process (some ctx) r))

end EnrichProcessor

end UbgoLogger
