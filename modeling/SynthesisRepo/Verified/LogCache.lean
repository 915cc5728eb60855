import SynthesisRepo.LogPipe.Common

/-! # Where cached log text goes

The cache text the parent process receives never repeats or invents header text
(`run_delivered_sublist`), and it is all of it when every call that opens the pipe sends a
log packet whose write succeeds (`run_delivered_of_log_writes`).  Otherwise text is lost:
`ConnectAndSendJson` clears the cache on every successful open, also for data and control
packets, which do not carry it, and before the write is known to succeed
(`connectAndSendJson_drops_cache`).
-/

namespace SynthesisRepo.Verified

open LogPipe

@[simp] theorem deliveredOf_append (first second : List Packet) :
    deliveredOf (first ++ second) = deliveredOf first ++ deliveredOf second := by
  induction first with
  | nil => simp [deliveredOf]
  | cons packet packets ih => simp [deliveredOf, ih, String.append_assoc]

@[simp] theorem run_cons (state : PipeState) (call : Call) (calls : List Call) :
    run state (call :: calls) = run (step state call) calls := rfl

/-- Received text followed by the cache. -/
def pending (state : PipeState) : String := deliveredText state ++ state.logCache

/-- One send: what the parent then holds, followed by the cache, is a part of what it held
followed by the cache before. -/
theorem connectAndSendJson_sublist (state : PipeState) (pipeType : PipeType) (content : String)
    (opened writeOk : Bool) :
    List.Sublist (pending (connectAndSendJson state pipeType content opened writeOk)).data
      (pending state).data := by
  unfold connectAndSendJson
  split
  · exact List.Sublist.refl _
  · by_cases log : pipeType = .LOG <;> cases writeOk <;>
      simp [pending, deliveredText, log, deliveredOf]

/-- Nothing the parent receives is sent twice or invented: over any calls, the received
text and the cache are a part of the received text, the cache and the new header text. -/
theorem run_delivered_sublist (state : PipeState) (calls : List Call) :
    List.Sublist (pending (run state calls)).data (pending state ++ headerText calls).data := by
  induction calls generalizing state with
  | nil => simp [run, headerText]
  | cons call calls ih =>
    cases call with
    | createLogHeader logInfo =>
      simpa [step, createLogHeader, headerText, pending, deliveredText, String.append_assoc]
        using ih (createLogHeader state logInfo)
    | connectAndSendJson pipeType content opened writeOk =>
      exact (ih _).trans ((connectAndSendJson_sublist state pipeType content opened writeOk).append
        (List.Sublist.refl _) |>.trans (by simp [headerText]))

/-- When every call that opens the pipe sends a log packet whose write succeeds, the
parent receives the whole header text, in order. -/
theorem run_delivered_of_log_writes (state : PipeState) (calls : List Call)
    (logWrites : ∀ pipeType content writeOk,
      Call.connectAndSendJson pipeType content true writeOk ∈ calls →
        pipeType = .LOG ∧ writeOk = true) :
    pending (run state calls) = pending state ++ headerText calls := by
  induction calls generalizing state with
  | nil => simp [run, headerText]
  | cons call calls ih =>
    have logWrites' := fun p c w mem => logWrites p c w (List.mem_cons_of_mem call mem)
    cases call with
    | createLogHeader logInfo =>
      rw [run_cons, ih _ logWrites']
      simp [step, createLogHeader, headerText, pending, deliveredText, String.append_assoc]
    | connectAndSendJson pipeType content opened writeOk =>
      rw [run_cons, ih _ logWrites']
      simp only [step, connectAndSendJson, headerText]
      split
      · rfl
      · rename_i sent
        obtain rfl : opened = true := by simpa using (not_or.mp sent).2
        obtain ⟨rfl, rfl⟩ := logWrites pipeType content writeOk (List.mem_cons_self _ _)
        simp [pending, deliveredText, deliveredOf]

theorem run_delivered_of_log_writes_header :
    (∀ pipeType content writeOk, Call.connectAndSendJson pipeType content true writeOk ∈
        [.createLogHeader "abc", .connectAndSendJson .LOG "x" true true] →
        pipeType = .LOG ∧ writeOk = true) ∧
      pending (run ⟨"7", "", []⟩ [.createLogHeader "abc", .connectAndSendJson .LOG "x" true true]) =
        pending ⟨"7", "", []⟩ ++ headerText [.createLogHeader "abc", .connectAndSendJson .LOG "x" true true] :=
  have logWrites : ∀ pipeType content writeOk, Call.connectAndSendJson pipeType content true writeOk ∈
      [Call.createLogHeader "abc", .connectAndSendJson .LOG "x" true true] →
      pipeType = .LOG ∧ writeOk = true := by
    simp only [List.mem_cons, List.mem_singleton, List.not_mem_nil, or_false]
    rintro _ _ _ (found | found) <;> cases found
    exact ⟨rfl, rfl⟩
  ⟨logWrites, run_delivered_of_log_writes _ _ logWrites⟩

/-- With a parent process, a data packet sent after a header clears the cache without
carrying it: the header text is never received. -/
theorem connectAndSendJson_drops_cache :
    pending (run ⟨"7", "", []⟩ [.createLogHeader "abc", .connectAndSendJson .DATA "x" true true]) = "" ∧
      headerText [.createLogHeader "abc", .connectAndSendJson .DATA "x" true true] = "abc" := by
  decide

end SynthesisRepo.Verified
