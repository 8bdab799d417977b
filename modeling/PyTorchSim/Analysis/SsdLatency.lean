import PyTorchSim.Library.Runs
import PyTorchSim.Model.SsdTrace

/-!
# The latencies of the rows come back

A row of the trace is read back under the name that is left when it is trimmed, and not at all
when nothing is left.  The latencies of the rows come back under the names of their instructions
if and only if these names are not empty and do not change when they are trimmed.
-/

set_option autoImplicit false

namespace PyTorchSim.Analysis

open PyTorchSim.Model PyTorchSim.Library

/-! ## A row is read -/

theorem isBlank_of_isDigit {c : Char} (h : c.isDigit) : isBlank c = false := by
  by_contra hblank
  simp only [isBlank, Bool.not_eq_false, decide_eq_true_eq] at hblank
  rcases hblank with rfl | rfl | rfl | rfl <;> simp at h

theorem trimCopy_digits (n : ℕ) : trimCopy (Nat.toDigits 10 n) = Nat.toDigits 10 n := by
  apply trim_eq_self
  intro c hc
  exact isBlank_of_isDigit (Nat.isDigit_of_mem_toDigits (by omega) (by omega) hc)

/-- The rows that the trace manager writes for names without delimiters. -/
structure Delimited (row : TraceRow) : Prop where
  op : row.op = 'R' ∨ row.op = 'W'
  comma : ',' ∉ row.addrName
  newline : '\n' ∉ row.addrName

/-- The fields of a row, as they stand on its line. -/
def rowFields (row : TraceRow) : List (List Char) :=
  [Nat.toDigits 10 row.seq.toNat, [row.op], Nat.toDigits 10 row.addr,
    Nat.toDigits 10 row.totalBytes, Nat.toDigits 10 row.timestampNs,
    Nat.toDigits 10 row.coreId.toNat, Nat.toDigits 10 row.instId.toNat, row.addrName]

theorem rowText_eq_intercalate (row : TraceRow) : row.text = [','].intercalate (rowFields row) :=
  rfl

theorem Delimited.not_mem_fields {row : TraceRow} (h : Delimited row) {d : Char}
    (hd : d = ',' ∨ d = '\n') : ∀ f ∈ rowFields row, d ∉ f := by
  have hdigit : d.isDigit = false := by rcases hd with rfl | rfl <;> rfl
  intro f hf
  simp only [rowFields, List.mem_cons, List.not_mem_nil, or_false] at hf
  rcases hf with rfl | rfl | rfl | rfl | rfl | rfl | rfl | rfl
  · exact not_mem_decimal hdigit _
  · rcases h.op with hop | hop <;> rcases hd with rfl | rfl <;> simp [hop]
  · exact not_mem_decimal hdigit _
  · exact not_mem_decimal hdigit _
  · exact not_mem_decimal hdigit _
  · exact not_mem_decimal hdigit _
  · exact not_mem_decimal hdigit _
  · rcases hd with rfl | rfl
    · exact h.comma
    · exact h.newline

/-- The line of a row with a latency. -/
def latencyLine (p : TraceRow × UInt64) : List Char :=
  p.1.text ++ ',' :: Nat.toDigits 10 p.2.toNat

theorem latencyLine_eq_intercalate (p : TraceRow × UInt64) :
    latencyLine p = [','].intercalate (rowFields p.1 ++ [Nat.toDigits 10 p.2.toNat]) := by
  rw [intercalate_concat ',' (by simp [rowFields]), ← rowText_eq_intercalate, latencyLine]

theorem Delimited.not_mem_latencyFields {row : TraceRow} (h : Delimited row) (latency : UInt64)
    {d : Char} (hd : d = ',' ∨ d = '\n') :
    ∀ f ∈ rowFields row ++ [Nat.toDigits 10 latency.toNat], d ∉ f := by
  have hdigit : d.isDigit = false := by rcases hd with rfl | rfl <;> rfl
  intro f hf
  rcases List.mem_append.1 hf with hf | hf
  · exact h.not_mem_fields hd f hf
  · rw [List.mem_singleton.1 hf]
    exact not_mem_decimal hdigit _

theorem Delimited.newline_not_mem {p : TraceRow × UInt64} (h : Delimited p.1) :
    '\n' ∉ latencyLine p := by
  rw [latencyLine_eq_intercalate]
  exact not_mem_intercalate (h.not_mem_latencyFields p.2 (.inr rfl)) (by simp)

/-- The tokens of a row: the name is missing if nothing is left of it. -/
theorem Delimited.splitCsv_latencyLine {p : TraceRow × UInt64} (h : Delimited p.1) :
    splitCsv (latencyLine p) =
      [Nat.toDigits 10 p.1.seq.toNat, [p.1.op], Nat.toDigits 10 p.1.addr,
        Nat.toDigits 10 p.1.totalBytes, Nat.toDigits 10 p.1.timestampNs,
        Nat.toDigits 10 p.1.coreId.toNat, Nat.toDigits 10 p.1.instId.toNat] ++
      ([trimCopy p.1.addrName].filter (· ≠ []) ++ [Nat.toDigits 10 p.2.toNat]) := by
  have hop : trimCopy [p.1.op] = [p.1.op] := by
    rcases h.op with hop | hop <;> rw [hop] <;> decide
  rw [splitCsv, latencyLine_eq_intercalate,
    fields_intercalate (h.not_mem_latencyFields p.2 (.inl rfl)) (List.getLast?_concat)
      Nat.toDigits_ne_nil]
  by_cases hname : trimCopy p.1.addrName = []
  · simp [rowFields, trimCopy_digits, hop, Nat.toDigits_ne_nil, hname]
  · simp [rowFields, trimCopy_digits, hop, Nat.toDigits_ne_nil, hname]

/-! ## The queues of a file -/

/-- A core, an instruction and a name. -/
structure LatencyKey where
  coreId : UInt32
  instId : UInt64
  addrName : List Char
deriving DecidableEq

def LatencyKey.text (k : LatencyKey) : List Char :=
  SsdTraceManager.makeLatencyKey k.coreId.toNat k.instId.toNat k.addrName

theorem LatencyKey.text_injective : Function.Injective LatencyKey.text := by
  intro k k' h
  have hbar : ('|' : Char).isDigit = false := rfl
  obtain ⟨hcore, hrest⟩ := append_delimiter_inj (not_mem_decimal hbar _) (not_mem_decimal hbar _) h
  obtain ⟨hinst, hname⟩ :=
    append_delimiter_inj (not_mem_decimal hbar _) (not_mem_decimal hbar _) hrest
  cases k
  cases k'
  simp only [LatencyKey.mk.injEq]
  exact ⟨UInt32.toNat_inj.1 (decimal_injective hcore), UInt64.toNat_inj.1 (decimal_injective hinst),
    hname⟩

/-- The key of the instruction of a row. -/
def rowKey (row : TraceRow) : LatencyKey := ⟨row.coreId, row.instId, row.addrName⟩

/-- The key under which a row is read back. -/
def trimmedKey (row : TraceRow) : LatencyKey := ⟨row.coreId, row.instId, trimCopy row.addrName⟩

/-- What a row does to the queues. -/
def readRow (t : List (List Char × List ℕ)) (p : TraceRow × UInt64) :
    List (List Char × List ℕ) :=
  if trimCopy p.1.addrName = [] then t
  else KeyedQueues.pushBack (trimmedKey p.1).text p.2.toNat t

theorem Delimited.line_eq {p : TraceRow × UInt64} (h : Delimited p.1)
    (t : List (List Char × List ℕ)) :
    SsdTraceManager.LatencyReader.line ⟨false, t⟩ (latencyLine p) =
      .ok ⟨false, readRow t p⟩ := by
  have hne : latencyLine p ≠ [] := by simp [latencyLine]
  have hcore : stoul (Nat.toDigits 10 p.1.coreId.toNat) = .ok p.1.coreId.toNat :=
    stoul_toDigits (p.1.coreId.toNat_lt.trans (by norm_num))
  have hinst := stoull_toDigits p.1.instId.toNat_lt
  have hlatency := stoull_toDigits p.2.toNat_lt
  rw [SsdTraceManager.LatencyReader.line, if_neg hne]
  simp only [Bool.false_and, Bool.false_eq_true, if_false, SsdTraceManager.LatencyReader.row]
  rw [h.splitCsv_latencyLine]
  by_cases hname : trimCopy p.1.addrName = []
  · simp [readRow, hname]
  · simp [readRow, hname, hcore, hinst, hlatency, bind, Except.bind, pure, Except.pure,
      trimmedKey, LatencyKey.text]

theorem foldlM_latencyLine {ps : List (TraceRow × UInt64)} (h : ∀ p ∈ ps, Delimited p.1)
    (t : List (List Char × List ℕ)) :
    (ps.map latencyLine).foldlM SsdTraceManager.LatencyReader.line ⟨false, t⟩ =
      .ok ⟨false, ps.foldl readRow t⟩ := by
  induction ps generalizing t with
  | nil => rfl
  | cons p ps ih =>
    rw [List.map_cons, List.foldlM_cons, (h p List.mem_cons_self).line_eq]
    exact ih (fun p hp => h p (List.mem_cons_of_mem _ hp)) (readRow t p)

/-- The queue of a key. -/
def queueOf (t : List (List Char × List ℕ)) (k : LatencyKey) : List ℕ :=
  (KeyedQueues.find k.text t).getD []

/-- The latencies of the rows of a key, in their order. -/
def latenciesBy (key : TraceRow → LatencyKey) (ps : List (TraceRow × UInt64)) (k : LatencyKey) :
    List ℕ :=
  (ps.filter fun p => key p.1 = k).map fun p => p.2.toNat

theorem queueOf_foldl_readRow (ps : List (TraceRow × UInt64)) (t : List (List Char × List ℕ))
    (k : LatencyKey) :
    queueOf (ps.foldl readRow t) k = queueOf t k ++
      latenciesBy trimmedKey (ps.filter fun p => trimCopy p.1.addrName ≠ []) k := by
  induction ps generalizing t with
  | nil => simp [latenciesBy]
  | cons p ps ih =>
    rw [List.foldl_cons, ih]
    by_cases hname : trimCopy p.1.addrName = []
    · simp [readRow, hname]
    · by_cases hk : trimmedKey p.1 = k
      · simp [readRow, hname, queueOf, KeyedQueues.find_pushBack, latenciesBy, hk]
      · have hne : k.text ≠ (trimmedKey p.1).text := fun heq =>
          hk (LatencyKey.text_injective heq).symm
        simp [readRow, hname, queueOf, KeyedQueues.find_pushBack, latenciesBy, hk, hne]

/-- The keys of a file have one queue each, and it holds a latency. -/
structure QueuesKept (t : List (List Char × List ℕ)) : Prop where
  nodup : (KeyedQueues.keys t).Nodup
  nonempty : ∀ k, KeyedQueues.find k t ≠ some []

theorem QueuesKept.nil : QueuesKept [] where
  nodup := List.nodup_nil
  nonempty k := by simp

theorem QueuesKept.readRow {t : List (List Char × List ℕ)} (h : QueuesKept t)
    (p : TraceRow × UInt64) : QueuesKept (readRow t p) := by
  unfold Analysis.readRow
  split
  · exact h
  · refine ⟨KeyedQueues.nodup_keys_pushBack h.nodup, fun k => ?_⟩
    rw [KeyedQueues.find_pushBack]
    split
    · simp
    · exact h.nonempty k

theorem QueuesKept.foldl_readRow {t : List (List Char × List ℕ)} (h : QueuesKept t)
    (ps : List (TraceRow × UInt64)) : QueuesKept (ps.foldl Analysis.readRow t) := by
  induction ps generalizing t with
  | nil => exact h
  | cons p ps ih => exact ih (h.readRow p)

theorem QueuesKept.popFront {t : List (List Char × List ℕ)} (h : QueuesKept t) {k : List Char}
    {a : ℕ} {l : List ℕ} (hk : KeyedQueues.find k t = some (a :: l)) :
    QueuesKept (KeyedQueues.popFront k t) := by
  refine ⟨h.nodup.sublist KeyedQueues.keys_popFront_sublist, fun k' => ?_⟩
  by_cases hkk : k' = k
  · rw [hkk, KeyedQueues.find_popFront_self h.nodup hk]
    split
    · simp
    · next hl => simpa using hl
  · rw [KeyedQueues.find_popFront_of_ne hkk]
    exact h.nonempty k'

/-! ## The queues are taken from -/

/-- A manager whose latencies are loaded: it is off only when it has none. -/
structure Loaded (m : SsdTraceManager) : Prop where
  kept : QueuesKept m.latencyMap
  enabled : m.latencyEnabled = false → m.latencyMap = []

/-- The key that a core and an instruction ask for. -/
def requestKey (q : UInt32 × TracedInst) : LatencyKey :=
  ⟨q.1, q.2.globalInstId, q.2.addrName⟩

def popRequest (m : SsdTraceManager) (q : UInt32 × TracedInst) : SsdTraceManager × Option ℕ :=
  m.popLatencyForInstruction q.1 q.2

section Pop

variable {m : SsdTraceManager} {q : UInt32 × TracedInst}

theorem popRequest_eq (h : Loaded m) :
    popRequest m q =
      match KeyedQueues.find (requestKey q).text m.latencyMap with
      | some (a :: _) =>
        ({ m with latencyMap := KeyedQueues.popFront (requestKey q).text m.latencyMap }, some a)
      | _ => (m, none) := by
  unfold popRequest SsdTraceManager.popLatencyForInstruction
  cases hm : m.latencyEnabled with
  | false => simp [h.enabled hm]
  | true => rfl

/-- A request is answered by the first latency of its key. -/
theorem popRequest_answer (h : Loaded m) :
    (popRequest m q).2 = (queueOf m.latencyMap (requestKey q)).head? := by
  rw [popRequest_eq h, queueOf]
  cases hfind : KeyedQueues.find (requestKey q).text m.latencyMap with
  | none => rfl
  | some l =>
    cases l with
    | nil => rfl
    | cons a l => rfl

/-- A request takes the first latency of its key away, and no other one. -/
theorem popRequest_queueOf (h : Loaded m) (k : LatencyKey) :
    queueOf (popRequest m q).1.latencyMap k =
      if k = requestKey q then (queueOf m.latencyMap k).tail else queueOf m.latencyMap k := by
  rw [popRequest_eq h]
  cases hfind : KeyedQueues.find (requestKey q).text m.latencyMap with
  | none =>
    by_cases hk : k = requestKey q
    · simp [queueOf, hk, hfind]
    · simp [hk]
  | some l =>
    cases l with
    | nil => exact absurd hfind (h.kept.nonempty _)
    | cons a l =>
      by_cases hk : k = requestKey q
      · rw [if_pos hk, hk, queueOf, queueOf, hfind]
        simp only [KeyedQueues.find_popFront_self h.kept.nodup hfind]
        cases l with
        | nil => rfl
        | cons b l => rfl
      · have hne : k.text ≠ (requestKey q).text := fun heq => hk (LatencyKey.text_injective heq)
        simp only [queueOf, KeyedQueues.find_popFront_of_ne hne, if_neg hk]

theorem Loaded.popRequest (h : Loaded m) : Loaded (popRequest m q).1 := by
  rw [popRequest_eq h]
  split
  · next a l hfind =>
    refine ⟨h.kept.popFront hfind, fun hoff => ?_⟩
    simp [h.enabled hoff] at hfind
  · exact h

end Pop

/-- The answers to some requests, one after the other. -/
def answers : SsdTraceManager → List (UInt32 × TracedInst) → List (Option ℕ)
  | _, [] => []
  | m, q :: qs => (popRequest m q).2 :: answers (popRequest m q).1 qs

/-- The n-th request of a key is answered by the n-th latency of its queue. -/
theorem answers_getElem? {m : SsdTraceManager} (h : Loaded m) (qs : List (UInt32 × TracedInst))
    (n : ℕ) :
    (answers m qs)[n]? = qs[n]?.map fun q =>
      (queueOf m.latencyMap (requestKey q))[
        (qs.take n).countP fun q' => requestKey q' = requestKey q]? := by
  induction qs generalizing m n with
  | nil => simp [answers]
  | cons q qs ih =>
    cases n with
    | zero => simp [answers, popRequest_answer h, List.head?_eq_getElem?]
    | succ n =>
      rw [answers, List.getElem?_cons_succ, ih h.popRequest, List.getElem?_cons_succ]
      congr 1
      funext q'
      rw [popRequest_queueOf h, List.take_succ_cons, List.countP_cons]
      by_cases hq : requestKey q = requestKey q'
      · simp [hq]
      · simp [hq, Ne.symm hq]

/-! ## The rows that are written -/

/-- What the DMA engine reports of an access. -/
structure TracedAccess where
  coreId : UInt32
  coreCycle : ℕ
  coreFreqMhz : ℕ
  inst : TracedInst

def traceAccess (m : SsdTraceManager) (a : TracedAccess) : SsdTraceManager :=
  m.maybeTraceAndMark a.coreId a.coreCycle a.coreFreqMhz a.inst

/-- The row that an access writes, if it writes one. -/
def writtenRow (m : SsdTraceManager) (a : TracedAccess) : Option TraceRow :=
  if m.enabled ∧ (a.inst.isDmaRead ∨ a.inst.isDmaWrite) ∧ a.inst.globalInstId ∉ m.instTraced then
    some (m.row a.coreId a.coreCycle a.coreFreqMhz a.inst)
  else none

/-- The rows that some accesses write. -/
def writtenRows : SsdTraceManager → List TracedAccess → List TraceRow
  | _, [] => []
  | m, a :: as => (writtenRow m a).toList ++ writtenRows (traceAccess m a) as

/-- The lines of some texts, each with its end. -/
def linesText (ls : List (List Char)) : List Char := ls.flatMap (· ++ ['\n'])

theorem traceAccess_traceFile (m : SsdTraceManager) (a : TracedAccess) :
    (traceAccess m a).traceFile =
      m.traceFile ++ linesText ((writtenRow m a).toList.map TraceRow.text) := by
  unfold traceAccess SsdTraceManager.maybeTraceAndMark writtenRow
  by_cases henabled : m.enabled
  · by_cases hdma : a.inst.isDmaRead ∨ a.inst.isDmaWrite
    · have hnot : (!a.inst.isDmaRead && !a.inst.isDmaWrite) = false := by
        rcases hdma with hdma | hdma <;> simp [hdma]
      by_cases htraced : a.inst.globalInstId ∈ m.instTraced
      · simp [henabled, hnot, htraced, linesText]
      · simp [henabled, hdma, hnot, htraced, linesText]
    · have hnot : (!a.inst.isDmaRead && !a.inst.isDmaWrite) = true := by
        simpa [not_or] using hdma
      simp [henabled, hdma, hnot, linesText]
  · simp [henabled, linesText]

theorem foldl_traceAccess_traceFile (m : SsdTraceManager) (as : List TracedAccess) :
    (as.foldl traceAccess m).traceFile =
      m.traceFile ++ linesText ((writtenRows m as).map TraceRow.text) := by
  induction as generalizing m with
  | nil => simp [writtenRows, linesText]
  | cons a as ih =>
    rw [List.foldl_cons, ih, traceAccess_traceFile, writtenRows]
    simp [linesText]

/-- The row of an access has its name, and is a read or a write. -/
theorem writtenRow_spec {m : SsdTraceManager} {a : TracedAccess} {row : TraceRow}
    (h : writtenRow m a = some row) :
    row.addrName = a.inst.addrName ∧ (row.op = 'R' ∨ row.op = 'W') := by
  unfold writtenRow at h
  split at h
  · cases h
    refine ⟨rfl, ?_⟩
    by_cases hw : a.inst.isDmaWrite
    · exact .inr (if_pos hw)
    · exact .inl (if_neg hw)
  · cases h

theorem delimited_of_mem_writtenRows {m : SsdTraceManager} {as : List TracedAccess}
    (h : ∀ a ∈ as, ',' ∉ a.inst.addrName ∧ '\n' ∉ a.inst.addrName) :
    ∀ row ∈ writtenRows m as, Delimited row := by
  induction as generalizing m with
  | nil => simp [writtenRows]
  | cons a as ih =>
    intro row hrow
    rcases List.mem_append.1 hrow with hrow | hrow
    · obtain ⟨hname, hop⟩ := writtenRow_spec (Option.mem_toList.1 hrow)
      have ha := h a List.mem_cons_self
      exact ⟨hop, hname ▸ ha.1, hname ▸ ha.2⟩
    · exact ih (fun a ha => h a (List.mem_cons_of_mem _ ha)) row hrow

/-! ## The file with a column of latencies -/

/-- A trace file with a column after its last one: `column` names it, and `lat` are the latencies
of the rows. -/
def appendLatencies (column : List Char) (lat : ℕ → UInt64) (file : List Char) : List Char :=
  match fields '\n' file with
  | [] => []
  | header :: rows =>
    linesText ((header ++ ',' :: column) ::
      rows.mapIdx fun i row => row ++ ',' :: Nat.toDigits 10 (lat i).toNat)

/-- The rows with their latencies. -/
def withLatencies (lat : ℕ → UInt64) (rows : List TraceRow) : List (TraceRow × UInt64) :=
  rows.mapIdx fun i row => (row, lat i)

/-- The file that is loaded answers every sequence of requests with the latencies of the rows of
each key, in the order of the file. -/
def Replays (column : List Char) (lat : ℕ → UInt64) (file : List Char) (rows : List TraceRow) :
    Prop :=
  ∃ m, SsdTraceManager.opened.loadLatencyFile (some (appendLatencies column lat file)) = .ok m ∧
    ∀ (qs : List (UInt32 × TracedInst)) (n : ℕ),
      (answers m qs)[n]? = qs[n]?.map fun q =>
        (latenciesBy rowKey (withLatencies lat rows) (requestKey q))[
          (qs.take n).countP fun q' => requestKey q' = requestKey q]?

theorem fst_of_mem_withLatencies {lat : ℕ → UInt64} {rows : List TraceRow}
    {p : TraceRow × UInt64} (h : p ∈ withLatencies lat rows) : p.1 ∈ rows := by
  obtain ⟨i, hi, rfl⟩ := List.mem_mapIdx.1 h
  exact List.getElem_mem hi

theorem exists_mem_withLatencies (lat : ℕ → UInt64) {rows : List TraceRow} {row : TraceRow}
    (h : row ∈ rows) : ∃ latency, (row, latency) ∈ withLatencies lat rows := by
  obtain ⟨i, hi, rfl⟩ := List.getElem_of_mem h
  exact ⟨lat i, List.mem_mapIdx.2 ⟨i, hi, rfl⟩⟩

section File

variable {column : List Char} {lat : ℕ → UInt64} {rows : List TraceRow}

theorem newline_not_mem_traceHeader : '\n' ∉ traceHeader := by decide

theorem Delimited.newline_not_mem_text {row : TraceRow} (h : Delimited row) : '\n' ∉ row.text := by
  rw [rowText_eq_intercalate]
  exact not_mem_intercalate (h.not_mem_fields (.inr rfl)) (by simp)

theorem appendLatencies_written (h : ∀ row ∈ rows, Delimited row) :
    appendLatencies column lat (traceHeader ++ ['\n'] ++ linesText (rows.map TraceRow.text)) =
      linesText ((traceHeader ++ ',' :: column) :: (withLatencies lat rows).map latencyLine) := by
  have hlines : ∀ l ∈ traceHeader :: rows.map TraceRow.text, '\n' ∉ l := by
    intro l hl
    rcases List.mem_cons.1 hl with rfl | hl
    · exact newline_not_mem_traceHeader
    · obtain ⟨row, hrow, rfl⟩ := List.mem_map.1 hl
      exact (h row hrow).newline_not_mem_text
  have hfields := fields_terminated hlines
  rw [List.flatMap_cons] at hfields
  rw [appendLatencies, linesText, hfields]
  simp [withLatencies, List.mapIdx_eq_zipIdx_map, latencyLine, Function.comp_def, List.zipIdx_map]

/-- The queues that the file is read into. -/
def loadedQueues (lat : ℕ → UInt64) (rows : List TraceRow) : List (List Char × List ℕ) :=
  (withLatencies lat rows).foldl readRow []

theorem loadLatencyFile_written (hcolumn : '\n' ∉ column) (h : ∀ row ∈ rows, Delimited row) :
    SsdTraceManager.opened.loadLatencyFile (some (appendLatencies column lat
        (traceHeader ++ ['\n'] ++ linesText (rows.map TraceRow.text)))) =
      .ok { SsdTraceManager.opened with
        latencyMap := loadedQueues lat rows
        latencyEnabled := !(loadedQueues lat rows).isEmpty } := by
  have hrows : ∀ p ∈ withLatencies lat rows, Delimited p.1 :=
    fun p hp => h p.1 (fst_of_mem_withLatencies hp)
  have hlines : ∀ l ∈ (traceHeader ++ ',' :: column) :: (withLatencies lat rows).map latencyLine,
      '\n' ∉ l := by
    intro l hl
    rcases List.mem_cons.1 hl with rfl | hl
    · simp [newline_not_mem_traceHeader, hcolumn]
    · obtain ⟨p, hp, rfl⟩ := List.mem_map.1 hl
      exact (hrows p hp).newline_not_mem
  have hheader : SsdTraceManager.LatencyReader.line ⟨true, []⟩ (traceHeader ++ ',' :: column) =
      .ok ⟨false, []⟩ := rfl
  rw [appendLatencies_written h, SsdTraceManager.loadLatencyFile, linesText,
    fields_terminated hlines, List.foldlM_cons]
  show ((SsdTraceManager.LatencyReader.line ⟨true, []⟩ (traceHeader ++ ',' :: column)) >>= _) >>= _
    = _
  rw [hheader]
  show (List.foldlM _ _ _) >>= _ = _
  rw [foldlM_latencyLine hrows]
  rfl

theorem loaded_written : Loaded { SsdTraceManager.opened with
    latencyMap := loadedQueues lat rows
    latencyEnabled := !(loadedQueues lat rows).isEmpty } where
  kept := QueuesKept.nil.foldl_readRow (withLatencies lat rows)
  enabled hoff := by simpa using hoff

theorem queueOf_loadedQueues (k : LatencyKey) :
    queueOf (loadedQueues lat rows) k = latenciesBy trimmedKey
      ((withLatencies lat rows).filter fun p => trimCopy p.1.addrName ≠ []) k := by
  exact queueOf_foldl_readRow (withLatencies lat rows) [] k

/-- A name that stands for itself in the file. -/
def SurvivesTrim (name : List Char) : Prop := name ≠ [] ∧ trimCopy name = name

/-- When every name is kept, the queues hold the latencies of the rows. -/
theorem queueOf_loadedQueues_of_kept (hkept : ∀ row ∈ rows, SurvivesTrim row.addrName)
    (k : LatencyKey) :
    queueOf (loadedQueues lat rows) k = latenciesBy rowKey (withLatencies lat rows) k := by
  have hall : ((withLatencies lat rows).filter fun p => trimCopy p.1.addrName ≠ []) =
      withLatencies lat rows := by
    rw [List.filter_eq_self]
    intro p hp
    obtain ⟨hne, htrim⟩ := hkept p.1 (fst_of_mem_withLatencies hp)
    simp [htrim, hne]
  rw [queueOf_loadedQueues, hall, latenciesBy, latenciesBy]
  congr 1
  apply List.filter_congr
  intro p hp
  rw [trimmedKey, rowKey, (hkept p.1 (fst_of_mem_withLatencies hp)).2]

/-- A name that is not kept has no queue: what is read is trimmed. -/
theorem queueOf_loadedQueues_of_not_kept {k : LatencyKey} (h : ¬ SurvivesTrim k.addrName) :
    queueOf (loadedQueues lat rows) k = [] := by
  rw [queueOf_loadedQueues, latenciesBy, List.map_eq_nil_iff, List.filter_eq_nil_iff]
  intro p hp hk
  have hname : trimCopy p.1.addrName = k.addrName :=
    congrArg LatencyKey.addrName (of_decide_eq_true hk)
  have hne : trimCopy p.1.addrName ≠ [] := by simpa using (List.mem_filter.1 hp).2
  exact h ⟨hname ▸ hne, hname ▸ trim_idempotent p.1.addrName⟩

theorem replays_iff (hcolumn : '\n' ∉ column) (h : ∀ row ∈ rows, Delimited row) :
    Replays column lat (traceHeader ++ ['\n'] ++ linesText (rows.map TraceRow.text)) rows ↔
      ∀ row ∈ rows, SurvivesTrim row.addrName := by
  constructor
  · rintro ⟨m, hm, hanswers⟩ row hrow
    by_contra hnot
    rw [loadLatencyFile_written hcolumn h] at hm
    cases hm
    -- The first request for the key of the row finds nothing, but the row has a latency.
    let inst : TracedInst := ⟨row.instId, .movin, 0, 0, 0, row.addrName⟩
    have hfirst := hanswers [(row.coreId, inst)] 0
    rw [answers_getElem? loaded_written] at hfirst
    have hkey : requestKey (row.coreId, inst) = rowKey row := rfl
    simp only [List.getElem?_cons_zero, Option.map_some, List.take_zero, List.countP_nil, hkey,
      queueOf_loadedQueues_of_not_kept (k := rowKey row) hnot, Option.some.injEq] at hfirst
    obtain ⟨latency, hmem⟩ := exists_mem_withLatencies lat hrow
    have hlatency : latency.toNat ∈ latenciesBy rowKey (withLatencies lat rows) (rowKey row) :=
      List.mem_map.2 ⟨(row, latency), List.mem_filter.2 ⟨hmem, by simp⟩, rfl⟩
    rw [List.eq_nil_iff_length_eq_zero.2
      (Nat.le_zero.1 (List.getElem?_eq_none_iff.1 hfirst.symm))] at hlatency
    cases hlatency
  · intro hkept
    refine ⟨_, loadLatencyFile_written hcolumn h, fun qs n => ?_⟩
    rw [answers_getElem? loaded_written]
    simp only [queueOf_loadedQueues_of_kept hkept]

end File

/-- The latencies of a traced run are replayed if and only if every name that was written is
kept. -/
theorem ssd_latency_round_trip_iff (as : List TracedAccess) (lat : ℕ → UInt64)
    (column : List Char) (hcolumn : '\n' ∉ column)
    (h : ∀ a ∈ as, ',' ∉ a.inst.addrName ∧ '\n' ∉ a.inst.addrName) :
    Replays column lat (as.foldl traceAccess SsdTraceManager.opened).traceFile
        (writtenRows SsdTraceManager.opened as) ↔
      ∀ row ∈ writtenRows SsdTraceManager.opened as, SurvivesTrim row.addrName := by
  rw [foldl_traceAccess_traceFile]
  exact replays_iff hcolumn (delimited_of_mem_writtenRows h)

/-- A load of a tensor with a name of its own. -/
def namedAccess (name : String) : TracedAccess :=
  { coreId := 0, coreCycle := 100, coreFreqMhz := 0
    inst := { globalInstId := 7, opcode := .movin, tileNumel := 16, elemBits := 32
              baseDramAddress := 4096, addrName := name.toList } }

theorem ssd_latency_round_trip_iff_named :
    Replays "latency".toList (fun _ => 500)
        ([namedAccess "arg0"].foldl traceAccess SsdTraceManager.opened).traceFile
        (writtenRows SsdTraceManager.opened [namedAccess "arg0"]) ↔
      ∀ row ∈ writtenRows SsdTraceManager.opened [namedAccess "arg0"], SurvivesTrim row.addrName :=
  ssd_latency_round_trip_iff [namedAccess "arg0"] (fun _ => 500) "latency".toList (by decide)
    (by decide)

/-- The latency of an access without a name does not come back. -/
theorem ssd_latency_lost :
    ¬ Replays "latency".toList (fun _ => 500)
        ([namedAccess ""].foldl traceAccess SsdTraceManager.opened).traceFile
        (writtenRows SsdTraceManager.opened [namedAccess ""]) := by
  rintro ⟨m, hm, hanswers⟩
  have hnone : ((SsdTraceManager.opened.loadLatencyFile (some (appendLatencies "latency".toList
      (fun _ => 500) ([namedAccess ""].foldl traceAccess SsdTraceManager.opened).traceFile))).map
        fun m => answers m [(0, (namedAccess "").inst)]).toOption = some [none] := by
    decide +kernel
  have hlatency : (latenciesBy rowKey (withLatencies (fun _ => 500)
      (writtenRows SsdTraceManager.opened [namedAccess ""]))
        (requestKey (0, (namedAccess "").inst)))[0]? = some 500 := by
    decide +kernel
  have hfirst := hanswers [(0, (namedAccess "").inst)] 0
  rw [hm] at hnone
  have hanswer : answers m [(0, (namedAccess "").inst)] = [none] := Option.some.inj hnone
  rw [hanswer] at hfirst
  simp [hlatency] at hfirst

end PyTorchSim.Analysis
