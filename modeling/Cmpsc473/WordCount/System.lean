import Cmpsc473.WordCount.Words
import Cmpsc473.Channel.Roles
/-!
# `custom_eval` as a system

The mappers, `Reducer` and the main thread are the callers of one channel. What
a thread does between two calls of `buffer_send` and `buffer_receive` touches
nothing that the others read, so it is one step. The threads are there from
the start: `dividefile` has run, and the program may create them in any order.

The results are about texts whose messages fit the 64 bytes of `wordKV`, and so
the 1024 of the buffer that `Reducer` receives into (`Plain`). What a longer
message would overwrite is not modelled here; `reduceMessage` says where the
buffer of `Reducer` ends.
-/

namespace Cmpsc473.WordCount

open Channel Function BufferStatus

/-- The threads of `custom_eval`. -/
inductive Tid (n : Nat) where
  | mapper (i : Fin n)
  | reducer
  | main
  deriving DecidableEq, Fintype

/-- Where the main thread is: it joins the mappers, sends `"splmsg"` and joins
`Reducer`, closes the channel, returns. -/
inductive MainPc where
  | joining
  | sending
  | closing
  | returned
  deriving DecidableEq

/-- `tmp` is what is left to read of the files, and `returned` the mappers that
are through with theirs. `reducefile` is what `Reducer` wrote, once it has
returned. -/
structure Sys (n : Nat) where
  chan : Chan (Tid n)
  tmp : Fin n → List UInt8
  returned : Fin n → Bool
  root : Std.TreeMap CStr Int compar
  reducefile : Option (List UInt8)
  main : MainPc

variable {n : Nat}

/-- `custom_eval` with its threads created. -/
def customEval (gMapperThreads : Nat) (gBufferSize : Int) (text : List UInt8) : Sys gMapperThreads :=
  { chan := bufferCreate gBufferSize
    tmp := fun i => (dividefile text gMapperThreads).getD i []
    returned := fun _ => false
    root := ∅
    reducefile := none
    main := .joining }

/-- Thread `t` calls a function of the channel. -/
def Sys.call (s : Sys n) (t : Tid n) (c : Call) : Option (Sys n) :=
  (Channel.step s.chan (.call t c)).map fun chan => { s with chan := chan }

/-- `wordcount`, from one `buffer_send` to the next. -/
def wordcountStep (s : Sys n) (i : Fin n) : Option (Sys n) :=
  match s.returned i, s.chan.threads (.mapper i) with
  | false, .idle _ =>
    match scanWord 1023 (s.tmp i) with
    | some (x, rest) => { s with tmp := update s.tmp i rest }.call (.mapper i) (.send (wordKV x))
    | none => some { s with returned := update s.returned i true }
  | _, _ => none

/-- `Reducer`, from one `buffer_receive` to the next, and what follows its loop. -/
def reducerStep (s : Sys n) : Option (Sys n) :=
  match s.reducefile, s.chan.threads .reducer with
  | none, .idle none => s.call .reducer (.receive (List.replicate 1024 0))
  | none, .idle (some (bufferSuccess, out)) =>
    -- the next receive is given what `strtok` left at `out`
    match parseKV out with
    | some ((key, value), out) =>
      { s with root := Tally.accumulate addInt s.root key value }.call .reducer (.receive out)
    | none => none
  | none, .idle (some _) => some { s with reducefile := some (s.root.toList.flatMap line) }
  | _, _ => none

/-- The main thread after it created the others. -/
def mainStep (s : Sys n) : Option (Sys n) :=
  match s.main, s.chan.threads .main with
  | .joining, .idle _ =>
    if ∀ i, s.returned i = true then { s with main := .sending }.call .main (.send splmsg) else none
  | .sending, .idle _ => if s.reducefile.isSome then { s with main := .closing }.call .main .close else none
  | .closing, .idle _ => some { s with main := .returned }
  | _, _ => none

/-- Whose turn it is: a thread between two calls, or a step of the channel. -/
inductive Turn (n : Nat) where
  | mapper (i : Fin n)
  | reducer
  | main
  | chan (a : Act (Tid n))

/-- One step of the system. The calls are made by the threads. -/
def step (s : Sys n) : Turn n → Option (Sys n)
  | .mapper i => wordcountStep s i
  | .reducer => reducerStep s
  | .main => mainStep s
  | .chan (.call _ _) => none
  | .chan a => (Channel.step s.chan a).map fun c => { s with chan := c }

/-! ## What a step can do -/

/-- The steps, one constructor for each path through the code. -/
inductive Effect (s : Sys n) : Turn n → Sys n → Prop where
  | word {i r x rest} : s.returned i = false → s.chan.threads (.mapper i) = .idle r →
      scanWord 1023 (s.tmp i) = some (x, rest) →
      Effect s (.mapper i) { s with
        tmp := update s.tmp i rest
        chan := s.chan.goto (.mapper i) (.sendStart (wordKV x)) }
  | wordsEnd {i r} : s.returned i = false → s.chan.threads (.mapper i) = .idle r → scanWord 1023 (s.tmp i) = none →
      Effect s (.mapper i) { s with returned := update s.returned i true }
  | receive {out} : s.reducefile = none → s.chan.threads .reducer = .idle none →
      Effect s .reducer { s with chan := s.chan.goto .reducer (.receiveStart out) }
  | reduce {out e out'} : s.reducefile = none → s.chan.threads .reducer = .idle (some (bufferSuccess, out)) →
      parseKV out = some (e, out') →
      Effect s .reducer { s with
        root := Tally.accumulate addInt s.root e.1 e.2
        chan := s.chan.goto .reducer (.receiveStart out') }
  | walk {r out} : s.reducefile = none → s.chan.threads .reducer = .idle (some (r, out)) → r ≠ bufferSuccess →
      Effect s .reducer { s with reducefile := some (s.root.toList.flatMap line) }
  | joined {r} : s.main = .joining → s.chan.threads .main = .idle r → (∀ i, s.returned i = true) →
      Effect s .main { s with main := .sending, chan := s.chan.goto .main (.sendStart splmsg) }
  | close {r} : s.main = .sending → s.chan.threads .main = .idle r → s.reducefile.isSome = true →
      Effect s .main { s with main := .closing, chan := s.chan.goto .main .closeLock }
  | return {r} : s.main = .closing → s.chan.threads .main = .idle r → Effect s .main { s with main := .returned }
  | chan {a c} : (∀ t call, a ≠ .call t call) → Channel.Effect s.chan a c → Effect s (.chan a) { s with chan := c }

/-- A call by an idle thread. -/
theorem call_eq {s s' : Sys n} {t : Tid n} {c : Call} (h : s.call t c = some s') :
    s' = { s with chan := s.chan.goto t c.start } := by
  obtain ⟨chan, hc, rfl⟩ := Option.map_eq_some_iff.1 h
  simp only [Channel.step] at hc
  split at hc <;> cases hc
  rfl

/-- Every step is one of the effects. -/
theorem step_effect {s s' : Sys n} {a : Turn n} (h : step s a = some s') : Effect s a s' := by
  cases a with
  | mapper i =>
    simp only [step, wordcountStep] at h
    split at h
    · rename_i hr ht
      split at h
      · rename_i hs
        obtain rfl := call_eq h
        exact .word hr ht hs
      · cases h
        exact .wordsEnd hr ht ‹_›
    · cases h
  | reducer =>
    simp only [step, reducerStep] at h
    split at h
    · rename_i hf ht
      obtain rfl := call_eq h
      exact .receive hf ht
    · rename_i hf ht
      split at h
      · rename_i hp
        obtain rfl := call_eq h
        exact .reduce hf ht hp
      · cases h
    · rename_i r hne hf ht
      cases h
      obtain ⟨r, out⟩ := r
      apply Effect.walk hf ht
      rintro rfl
      exact hne out rfl
    · cases h
  | main =>
    simp only [step, mainStep] at h
    split at h
    · rename_i hm ht
      split at h
      · obtain rfl := call_eq h
        exact .joined hm ht ‹_›
      · cases h
    · rename_i hm ht
      split at h
      · obtain rfl := call_eq h
        exact .close hm ht ‹_›
      · cases h
    · cases h
      exact .return ‹_› ‹_›
    · cases h
  | chan a =>
    cases a with
    | call => cases h
    | test | lock | signal | spurious =>
      obtain ⟨c, hc, rfl⟩ := Option.map_eq_some_iff.1 h
      exact .chan (fun _ _ h => by cases h) (Channel.step_effect hc)

end Cmpsc473.WordCount
