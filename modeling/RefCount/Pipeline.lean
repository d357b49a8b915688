/-
The whole analysis. All functions get the modes of their parameters together;
then each function gets its counts, its pairs, the report on them, the
expansion of the pairs and the cancelling of counts, and is checked in
between. With a cache, a function whose key is known is taken from there.

The functions are worked on one after the other. When one fails, the one
behind it is under way already and is still worked on, and then the analysis
stops. So that callers can go on with what they have, the outcome says how each
given function was left.
-/
import RefCount.Cache
import RefCount.Count.Eliminate
import RefCount.Count.Insert
import RefCount.Drop
import RefCount.Lower.Func
import RefCount.Reuse.Expand

namespace RefCount

open Ir

namespace Pipeline

-- ======== functions

/-- What was done to a function. -/
structure FuncStats where
  name : String
  /-- Whether it was taken from the cache. -/
  cached : Bool
  pairs : Nat
  report : Reuse.Report
  expand : Reuse.ExpandStats
  cancelled : Nat
  deriving Inhabited

/-- Where the analysis of a function fails. -/
inductive FuncError where
  | insert (m : Malformed)
  | annotated (m : Malformed)
  | expanded (m : Malformed)
  deriving DecidableEq, Repr, Inhabited

def FuncError.message : FuncError → String
  | insert m => "rc insert: " ++ m.message
  | annotated m => "annotated: " ++ m.message
  | expanded m => "expanded: " ++ m.message

/-- How a function was left, and what was done to it. -/
structure Worked where
  left : Func
  stats : Except FuncError FuncStats

/-- Works on a function that is not in the cache. -/
def work (pool : Pool) (cls : Classes) (sigs : Signatures) (f : Func) : Except Fault Worked := do
  match Count.insert f cls sigs with
  | .error (.fault e) => throw e
  | .error (.malformed m) => return ⟨f, .error (.insert m)⟩
  | .ok counted =>
    let (paired, pairs) ← Reuse.annotate pool counted
    let report ← Reuse.report pool paired
    match paired.check .counted with
    | .error m => return ⟨paired, .error (.annotated m)⟩
    | .ok () =>
      let (expanded, expand) ← Reuse.expand pool cls paired
      let (short, cancelled) ← Count.eliminate expanded
      let done := short.markTailCalls
      match done.check .expanded with
      | .error m => return ⟨done, .error (.expanded m)⟩
      | .ok () => return ⟨done, .ok ⟨f.name, false, pairs, report, expand, cancelled⟩⟩

/-- How a function was left, the result for it, and the cache afterwards. -/
structure Processed where
  left : Func
  result : Except FuncError (Func × FuncStats)
  cache : Option Cache

/-- Works on a function, or takes it from the cache. -/
def process (pool : Pool) (cls : Classes) (sigs : Signatures) (version : String)
    (cache : Option Cache) (f : Func) : Except Fault Processed := do
  match cache with
  | none =>
    let w ← work pool cls sigs f
    return ⟨w.left, w.stats.map (w.left, ·), none⟩
  | some c =>
    let k ← Cache.key pool f sigs version
    match c.find k with
    | (some e, c) => return ⟨f, .ok (e.func, ⟨f.name, true, 0, e.report, .zero, 0⟩), some c⟩
    | (none, c) =>
      let w ← work pool cls sigs f
      let c := match w.stats with
        | .ok st => c.put k ⟨w.left, st.report⟩
        | .error _ => c
      return ⟨w.left, w.stats.map (w.left, ·), some c⟩

/-- A function that failed, and why. -/
structure FuncFailure where
  func : String
  error : FuncError
  deriving DecidableEq, Repr, Inhabited

/-- How functions were left, the results for them, and the cache
afterwards. -/
structure ProcessedAll where
  left : List Func
  results : Except FuncFailure (List (Func × FuncStats))
  cache : Option Cache

/-- Works on functions in order, up to the one behind the first that fails. -/
def processAll (pool : Pool) (cls : Classes) (sigs : Signatures) (version : String)
    (cache : Option Cache) : List Func → Except Fault ProcessedAll
  | [] => .ok ⟨[], .ok [], cache⟩
  | f :: fs => do
    let p ← process pool cls sigs version cache f
    match p.result with
    | .ok r =>
      let rest ← processAll pool cls sigs version p.cache fs
      return ⟨p.left :: rest.left, rest.results.map (r :: ·), rest.cache⟩
    | .error e =>
      match fs with
      | [] => return ⟨[p.left], .error ⟨f.name, e⟩, p.cache⟩
      | next :: others =>
        let q ← process pool cls sigs version p.cache next
        return ⟨p.left :: q.left :: others, .error ⟨f.name, e⟩, q.cache⟩

-- ======== analysis

/-- What the analysis of functions finds. -/
structure Analysis where
  pool : Pool
  classes : Classes
  funcs : List Func
  inferred : Borrow.Inferred
  stats : List FuncStats
  drops : Drop.Table
  deriving Inhabited

/-- The modes of the parameters of all functions. -/
def Analysis.sigs (a : Analysis) : Signatures := a.inferred.sigs

/-- Where an analysis fails. -/
inductive AnalyzeError where
  | classify (e : ClassError)
  | noFixpoint (iterations candidates : Nat)
  | func (e : FuncFailure)
  | cancelled
  deriving DecidableEq, Repr, Inhabited

def AnalyzeError.message : AnalyzeError → String
  | classify e => "classify: " ++ e.message
  | noFixpoint n c => "borrow: " ++ (Borrow.InferError.noFixpoint n c).message
  | func e => "func " ++ e.func ++ ": " ++ e.error.message
  | cancelled => "analyze: context canceled"

/-- How an analysis is run. -/
structure Settings where
  /-- A part of the keys of a cache; the empty one stands for the current. -/
  version : String
  /-- Whether the analysis is called off before it works on functions. -/
  isCancelled : Bool
  deriving Repr, Inhabited

def currentVersion : String := "arc-1"

def Settings.keyVersion (s : Settings) : String :=
  if s.version.isEmpty then currentVersion else s.version

/-- How the given functions were left, the result, and the cache
afterwards. -/
structure Outcome where
  left : List Func
  result : Except AnalyzeError Analysis
  cache : Option Cache

/-- Analyses functions, with the modes of the functions of the host. -/
def analyze (s : Settings) (cache : Option Cache) (pool : Pool) (externs : Signatures)
    (fs : List Func) : Except Fault Outcome := do
  match Classes.ofPool pool with
  | .error e => return ⟨fs, .error (.classify e), cache⟩
  | .ok cls =>
    match Borrow.infer fs externs cls with
    | .error (.fault e) => throw e
    | .error (.noFixpoint n c) => return ⟨fs, .error (.noFixpoint n c), cache⟩
    | .ok inferred =>
      let fs ← fs.mapM (Borrow.applyModes inferred.sigs)
      if s.isCancelled then return ⟨fs, .error .cancelled, cache⟩
      else
        let p ← processAll pool cls inferred.sigs s.keyVersion cache fs
        match p.results with
        | .error e => return ⟨p.left, .error (.func e), p.cache⟩
        | .ok results =>
          let funcs := results.map (·.1)
          let drops ← Drop.Table.collect pool cls funcs
          return ⟨p.left, .ok ⟨pool, cls, funcs, inferred, results.map (·.2), drops⟩, p.cache⟩

-- ======== programs

/-- Where the compilation of a program fails. -/
inductive CompileError where
  | lower (e : Lower.LowerFailure)
  | analyze (e : AnalyzeError)
  deriving Repr, Inhabited

def CompileError.message : CompileError → String
  | lower e => "lower: " ++ e.message
  | analyze e => e.message

/-- Compiles a program; the cache afterwards comes along. -/
def compile (s : Settings) (cache : Option Cache) (p : Program) :
    Except Fault (Except CompileError Analysis × Option Cache) := do
  match p.lower with
  | .error e =>
    match e.error with
    | .fault f => throw f
    | _ => return (.error (.lower e), cache)
  | .ok fs =>
    let o ← analyze s cache p.pool p.signatures fs
    return (o.result.mapError .analyze, o.cache)

end Pipeline

end RefCount
