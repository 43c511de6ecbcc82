import Hotstuff.Library.JsonArray
import Mathlib.Data.List.Basic

/-! The logger that writes metrics as a JSON array. What a message is and how it is marshalled are parameters; the
writer does not fail. -/
namespace Hotstuff
namespace Metrics
open Library JsonArray

structure Marshalling (Msg Any : Type*) where
  new : Msg → Except String Any
  marshal : Any → Except String (List Char)

inductive Loggable (Msg Any : Type*) where
  | any (msg : Any)
  | other (msg : Msg)

/-- The fields of `jsonLogger`: what has been written to `wr`, and the errors that went to the module's logger. -/
structure JsonLogger where
  first : Bool
  wr : List Char
  errors : List String := []
  deriving DecidableEq, Repr

namespace JsonLogger

def newJSONLogger : JsonLogger := { first := true, wr := ['[', '\n'] }

variable {Msg Any : Type*} (p : Marshalling Msg Any)

/-- The comma is written before it is known whether an element follows. -/
def write (msg : Any) (dl : JsonLogger) : JsonLogger × Option String :=
  let dl := if dl.first then { dl with first := false } else { dl with wr := dl.wr ++ [',', '\n'] }
  match p.marshal msg with
  | .error err => (dl,some ("failed to marshal message to JSON: " ++ err))
  | .ok b => ({ dl with wr := dl.wr ++ b },none)

def toAny : Loggable Msg Any → Except String Any
  | .any msg => .ok msg
  | .other msg => p.new msg

def log (dl : JsonLogger) (msg : Loggable Msg Any) : JsonLogger :=
  match toAny p msg with
  | .error err => { dl with errors := dl.errors ++ ["failed to create Any message: " ++ err] }
  | .ok any =>
    match write p any dl with
    | (dl,none) => dl
    | (dl,some err) => { dl with errors := dl.errors ++ ["failed to write message to log: " ++ err] }

def close (dl : JsonLogger) : JsonLogger := { dl with wr := dl.wr ++ ['\n', ']'] }

def contents (msgs : List (Loggable Msg Any)) : List Char := (close (msgs.foldl (log p) newJSONLogger)).wr

def reached (msgs : List (Loggable Msg Any)) : List Any := msgs.filterMap fun msg => (toAny p msg).toOption

def marshalled (msgs : List (Loggable Msg Any)) : List (List Char) :=
  (reached p msgs).filterMap fun any => (p.marshal any).toOption

def piece (any : Any) : List Char := (p.marshal any).toOption.getD []

theorem log_first (dl : JsonLogger) (msg : Loggable Msg Any) :
    (log p dl msg).first = (dl.first && (toAny p msg).toOption.isNone) := by
  rw [log]
  cases toAny p msg with
  | error err => simp [Except.toOption]
  | ok any =>
    cases hmarshal : p.marshal any <;> cases hfirst : dl.first <;> simp [write,hmarshal,hfirst,Except.toOption]

theorem log_wr (dl : JsonLogger) (msg : Loggable Msg Any) : (log p dl msg).wr =
    dl.wr ++ (toAny p msg).toOption.elim [] fun any => (if dl.first then [] else [',', '\n']) ++ piece p any := by
  rw [log]
  cases toAny p msg with
  | error err => simp [Except.toOption]
  | ok any =>
    cases hmarshal : p.marshal any <;> cases hfirst : dl.first <;> simp [write,piece,hmarshal,hfirst,Except.toOption]

private theorem reached_cons (msg : Loggable Msg Any) (msgs : List (Loggable Msg Any)) :
    reached p (msg :: msgs) = (toAny p msg).toOption.toList ++ reached p msgs := by
  rw [reached,List.filterMap_cons]
  cases (toAny p msg).toOption <;> rfl

private theorem foldl_later {dl : JsonLogger} (hfirst : dl.first = false) (msgs : List (Loggable Msg Any)) :
    (msgs.foldl (log p) dl).wr =
      dl.wr ++ ((reached p msgs).map (piece p)).flatMap fun e => [',', '\n'] ++ e := by
  induction msgs generalizing dl with
  | nil => simp [reached]
  | cons msg msgs ih =>
    rw [List.foldl_cons,ih (by rw [log_first,hfirst,Bool.false_and]),log_wr,hfirst,reached_cons]
    cases (toAny p msg).toOption <;> simp

private theorem foldl_first {dl : JsonLogger} (hfirst : dl.first = true) (msgs : List (Loggable Msg Any)) :
    (msgs.foldl (log p) dl).wr = dl.wr ++ lines ((reached p msgs).map (piece p)) := by
  induction msgs generalizing dl with
  | nil => simp [reached,lines]
  | cons msg msgs ih =>
    rw [List.foldl_cons,reached_cons]
    cases hany : (toAny p msg).toOption with
    | none =>
      rw [ih (by rw [log_first,hfirst,hany]; rfl),log_wr,hany]
      simp
    | some any =>
      rw [foldl_later p (by rw [log_first,hfirst,hany]; rfl),log_wr,hfirst,hany]
      simp [lines]

/-- The messages that reach `write` are separated by commas, whether or not they are marshalled. -/
theorem contents_eq (msgs : List (Loggable Msg Any)) :
    contents p msgs = ['[', '\n'] ++ lines ((reached p msgs).map (piece p)) ++ ['\n', ']'] := by
  rw [contents,close,foldl_first p rfl,newJSONLogger]

private theorem commas_contents (msgs : List (Loggable Msg Any)) :
    (contents p msgs).count ',' = commas ((reached p msgs).map (piece p)) + ((reached p msgs).length - 1) := by
  have hopen : List.count ',' ['[', '\n'] = 0 := by decide
  have hclose : List.count ',' ['\n', ']'] = 0 := by decide
  rw [contents_eq,List.count_append,List.count_append,commas_lines,List.length_map]
  omega

private theorem commas_pieces (anys : List Any) :
    commas (anys.map (piece p)) = commas (anys.filterMap fun any => (p.marshal any).toOption) := by
  induction anys with
  | nil => rfl
  | cons any anys ih =>
    rw [commas,commas] at ih ⊢
    rw [List.map_cons,List.flatten_cons,List.count_append,ih,List.filterMap_cons,piece]
    cases (p.marshal any).toOption <;> simp

private theorem pieces_eq {anys : List Any} (h : ∀ any ∈ anys, (p.marshal any).isOk = true) :
    anys.filterMap (fun any => (p.marshal any).toOption) = anys.map (piece p) := by
  rw [← List.filterMap_eq_map]
  refine List.filterMap_congr fun any hany => ?_
  have hany := h any hany
  rw [Function.comp_apply,piece]
  cases hmarshal : p.marshal any with
  | error err =>
    rw [hmarshal] at hany
    cases hany
  | ok b => rfl

/-- The log is an array of the marshalled messages exactly if all messages that reach `write` are marshalled, or not
more than one reaches it. -/
theorem contents_array_iff (msgs : List (Loggable Msg Any)) : IsArray (marshalled p msgs) (contents p msgs) ↔
    (reached p msgs).length ≤ 1 ∨ ∀ any ∈ reached p msgs, (p.marshal any).isOk = true := by
  constructor
  · intro h
    have hcommas := h.commas
    rw [commas_contents,commas_pieces,marshalled] at hcommas
    have hle := List.length_filterMap_le (fun any => (p.marshal any).toOption) (reached p msgs)
    by_cases hone : (reached p msgs).length ≤ 1
    · exact .inl hone
    · refine .inr fun any hany => ?_
      have hlength : ((reached p msgs).filterMap fun any => (p.marshal any).toOption).length =
          (reached p msgs).length := by omega
      have hsome := List.filterMap_length_eq_length.mp hlength any hany
      cases hmarshal : p.marshal any with
      | error err =>
        rw [hmarshal] at hsome
        cases hsome
      | ok b => rfl
  · intro h
    rw [contents_eq,marshalled]
    by_cases hall : ∀ any ∈ reached p msgs, (p.marshal any).isOk = true
    · rw [pieces_eq p hall]
      exact isArray_lines _
    · -- a single message that fails leaves the array empty
      have hone := h.resolve_right hall
      push Not at hall
      obtain ⟨any,hany,hfail⟩ := hall
      have hreached : reached p msgs = [any] := by
        have hpos := List.length_pos_of_mem hany
        obtain ⟨any',hreached⟩ := List.length_eq_one_iff.mp (show (reached p msgs).length = 1 by omega)
        rw [hreached,List.mem_singleton] at hany
        rw [hreached,hany]
      have hnone : (p.marshal any).toOption = none := by
        cases hmarshal : p.marshal any with
        | error err => rfl
        | ok b => exact absurd (by rw [hmarshal]; rfl) hfail
      have hempty := isArray_lines []
      rw [hreached]
      simpa [lines,piece,hnone] using hempty

private def evens : Marshalling ℕ ℕ :=
  ⟨.ok,fun n => if n % 2 = 0 then .ok ['\x7b', '\x7d'] else .error "odd"⟩

/-- After a first message that fails the array starts with a comma. -/
theorem contents_not_array : contents evens [.other 1,.other 2] = "[\n,\n\x7b\x7d\n]".toList ∧
    marshalled evens [.other 1,.other 2] = [['\x7b', '\x7d']] ∧
    ¬ IsArray (marshalled evens [.other 1,.other 2]) (contents evens [.other 1,.other 2]) := by
  refine ⟨by decide,by decide,fun h => ?_⟩
  have hcommas := h.commas
  revert hcommas
  decide

end JsonLogger
end Metrics
end Hotstuff
