import PyTorchSim.Library.Runs
import PyTorchSim.Model.CommandProtocol
import Mathlib.Data.List.Forall2
import Mathlib.Data.List.ReduceOption

/-!
# A command is read back as it was written

The reader converts the numbers of a line to types of fixed width, and what a conversion throws
ends the process.  The commands that are read back, and the other lines that are passed over, are
those whose numbers fit these types.
-/

set_option autoImplicit false

namespace PyTorchSim.Analysis

open PyTorchSim.Model PyTorchSim.Library

/-! ## The numbers of a line -/

theorem decimal_of_nonneg {n : ℤ} (h : 0 ≤ n) : decimal n = Nat.toDigits 10 n.natAbs := by
  simp [decimal, Int.not_lt.2 h]

theorem not_mem_decimal_of_nonneg {n : ℤ} (h : 0 ≤ n) {c : Char} (hc : c.isDigit = false) :
    c ∉ decimal n := by
  rw [decimal_of_nonneg h]
  exact not_mem_decimal hc n.natAbs

theorem decimal_ne_nil (n : ℤ) : decimal n ≠ [] := by
  unfold decimal
  split
  · simp
  · exact Nat.toDigits_ne_nil

theorem stoul_decimal_eq_ok {n : ℤ} (h : 0 ≤ n) {v : ℕ} :
    stoul (decimal n) = .ok v ↔ n < 2 ^ 64 ∧ v = n.natAbs := by
  have hiff : 2 ^ 64 ≤ n.natAbs ↔ 2 ^ 64 ≤ n := by omega
  simp only [stoul, stoull, decimal_of_nonneg h, readNumeral_decimal, hiff]
  by_cases hlarge : 2 ^ 64 ≤ n
  · rw [if_pos hlarge]
    constructor
    · intro hread
      cases hread
    · rintro ⟨hsmall, -⟩
      omega
  · rw [if_neg hlarge, if_neg (by simp), Except.ok.injEq, eq_comm]
    exact ⟨fun heq => ⟨by omega, heq⟩, And.right⟩

theorem stoi_decimal_eq_ok {n : ℤ} (h : 0 ≤ n) {v : ℤ} :
    stoi (decimal n) = .ok v ↔ n < 2 ^ 31 ∧ v = n := by
  have hvalue : (⟨false, n.natAbs⟩ : Numeral).value = n := Int.natAbs_of_nonneg h
  have hiff : (n < -2 ^ 31 ∨ 2 ^ 31 ≤ n) ↔ 2 ^ 31 ≤ n := by omega
  simp only [stoi, decimal_of_nonneg h, readNumeral_decimal, hvalue, hiff]
  by_cases hlarge : 2 ^ 31 ≤ n
  · rw [if_pos hlarge]
    constructor
    · intro hread
      cases hread
    · rintro ⟨hsmall, -⟩
      omega
  · rw [if_neg hlarge, Except.ok.injEq, eq_comm]
    exact ⟨fun heq => ⟨by omega, heq⟩, And.right⟩

/-- The text starts with a number of 64 bits. -/
def ReadsUnsigned (s : List Char) : Prop :=
  ∃ n, StartsWith s n ∧ n.magnitude < 2 ^ 64

/-- The text starts with a number of 32 bits with a sign. -/
def ReadsInt (s : List Char) : Prop :=
  ∃ n, StartsWith s n ∧ -2 ^ 31 ≤ n.value ∧ n.value < 2 ^ 31

theorem stoul_isOk_iff {s : List Char} : (∃ v, stoul s = .ok v) ↔ ReadsUnsigned s := by
  constructor
  · rintro ⟨v, hv⟩
    simp only [stoul, stoull] at hv
    split at hv
    · cases hv
    · rename_i n hn
      refine ⟨n, readNumeral_eq_some hn, ?_⟩
      by_contra hlarge
      rw [if_pos (not_lt.1 hlarge)] at hv
      cases hv
  · rintro ⟨n, hn, hsmall⟩
    simp only [stoul, stoull, readNumeral_of_startsWith hn, if_neg (not_le.2 hsmall)]
    split
    · exact ⟨_, rfl⟩
    · exact ⟨_, rfl⟩

theorem stoi_isOk_iff {s : List Char} : (∃ v, stoi s = .ok v) ↔ ReadsInt s := by
  constructor
  · rintro ⟨v, hv⟩
    simp only [stoi] at hv
    split at hv
    · cases hv
    · rename_i n hn
      refine ⟨n, readNumeral_eq_some hn, ?_⟩
      by_contra hrange
      rw [if_pos (by omega)] at hv
      cases hv
  · rintro ⟨n, hn, hlow, hhigh⟩
    simp only [stoi, readNumeral_of_startsWith hn]
    rw [if_neg (by omega)]
    exact ⟨n.value, rfl⟩

/-! ## One line -/

/-- The types of the commands that the reader carries out. -/
def KnownType (commandType : List Char) : Prop :=
  commandType = launchKernelType ∨ commandType = deviceSyncType

instance (commandType : List Char) : Decidable (KnownType commandType) :=
  inferInstanceAs (Decidable (_ ∨ _))

/-- The command that a line is read into: none if the line is passed over. -/
def lineCommand (line : List Char) : Except ConversionError (Option Command) :=
  (readLine line).map (Option.filter fun c => KnownType c.commandType)

theorem lineCommand_eq_ok_some {l : List Char} {c : Command} (h : lineCommand l = .ok (some c)) :
    KnownType c.commandType := by
  unfold lineCommand at h
  cases hread : readLine l with
  | error e =>
    rw [hread] at h
    cases h
  | ok o =>
    rw [hread] at h
    have hfilter : o.filter (fun c => KnownType c.commandType) = some c := Except.ok.inj h
    simpa using (Option.filter_eq_some_iff.1 hfilter).2

section Reading

variable {σ : Type} (handlers : TraceHandlers σ)

theorem dispatch_of_not_known {run : TraceRun σ} {c : Command} (h : ¬ KnownType c.commandType) :
    run.dispatch handlers c = run := by
  have hlaunch : c.commandType ≠ launchKernelType := fun heq => h (.inl heq)
  have hsync : c.commandType ≠ deviceSyncType := fun heq => h (.inr heq)
  simp [TraceRun.dispatch, hlaunch, hsync]

theorem dispatch_commands {run : TraceRun σ} {c : Command} (h : KnownType c.commandType) :
    (run.dispatch handlers c).commands = run.commands ++ [c] := by
  unfold TraceRun.dispatch
  split_ifs with hlaunch hsync
  · rfl
  · rfl
  · exact absurd h (not_or.2 ⟨hlaunch, hsync⟩)

/-- A line acts on the run through the command that it is read into. -/
theorem line_eq (run : TraceRun σ) (l : List Char) :
    run.line handlers l =
      (lineCommand l).map fun o => o.toList.foldl (TraceRun.dispatch handlers) run := by
  unfold TraceRun.line lineCommand
  cases readLine l with
  | error e => rfl
  | ok o =>
    cases o with
    | none => rfl
    | some c =>
      by_cases hknown : KnownType c.commandType
      · simp [bind, Except.bind, pure, Except.pure, Except.map, Option.filter, hknown]
      · simp [bind, Except.bind, pure, Except.pure, Except.map, Option.filter, hknown,
          dispatch_of_not_known handlers hknown]

/-- The run over some lines is the run over the commands that they are read into. -/
theorem foldlM_line_eq_ok_iff {lines : List (List Char)} {run run' : TraceRun σ} :
    lines.foldlM (TraceRun.line handlers) run = .ok run' ↔
      ∃ os, List.Forall₂ (fun l o => lineCommand l = .ok o) lines os ∧
        run' = os.reduceOption.foldl (TraceRun.dispatch handlers) run := by
  induction lines generalizing run with
  | nil =>
    constructor
    · intro h
      cases h
      exact ⟨[], .nil, rfl⟩
    · rintro ⟨os, hos, rfl⟩
      cases hos
      rfl
  | cons l lines ih =>
    rw [List.foldlM_cons, bind_eq_ok]
    constructor
    · rintro ⟨run₁, hl, hrest⟩
      rw [line_eq] at hl
      cases ho : lineCommand l with
      | error e =>
        rw [ho] at hl
        cases hl
      | ok o =>
        rw [ho] at hl
        cases hl
        obtain ⟨os, hos, hrun'⟩ := ih.1 hrest
        refine ⟨o :: os, .cons ho hos, ?_⟩
        cases o <;> simpa using hrun'
    · rintro ⟨os, hos, hrun'⟩
      cases hos with
      | @cons _ o _ os ho hos =>
        refine ⟨o.toList.foldl (TraceRun.dispatch handlers) run, ?_, ih.2 ⟨os, hos, ?_⟩⟩
        · rw [line_eq, ho]
          rfl
        · cases o <;> simpa using hrun'

theorem foldl_dispatch_commands {cs : List Command} {run : TraceRun σ}
    (h : ∀ c ∈ cs, KnownType c.commandType) :
    (cs.foldl (TraceRun.dispatch handlers) run).commands = run.commands ++ cs := by
  induction cs generalizing run with
  | nil => simp
  | cons c cs ih =>
    rw [List.foldl_cons, ih (fun c hc => h c (List.mem_cons_of_mem _ hc)),
      dispatch_commands handlers (h c List.mem_cons_self), List.append_assoc, List.singleton_append]

/-- The run that carries out some commands in their order, with the cycles after the last one. -/
def carriedOut (simulator : σ) (cs : List Command) : TraceRun σ :=
  let run := cs.foldl (TraceRun.dispatch handlers) { simulator }
  { run with simulator := handlers.cycle run.simulator }

/-- What the lines of a file are read into, in their order. -/
def ReadInto (lines : List (List Char)) (os : List (Option Command)) : Prop :=
  List.Forall₂ (fun l o => lineCommand l = .ok o) lines os

theorem ReadInto.known {lines : List (List Char)} {os : List (Option Command)}
    (h : ReadInto lines os) : ∀ c ∈ os.reduceOption, KnownType c.commandType := by
  induction h with
  | nil => simp
  | @cons l o lines os ho hos ih =>
    intro c hc
    rcases List.mem_cons.1 (List.reduceOption_mem_iff.1 hc) with heq | hmem
    · exact lineCommand_eq_ok_some (heq ▸ ho)
    · exact ih c (List.reduceOption_mem_iff.2 hmem)

theorem carriedOut_commands (simulator : σ) {cs : List Command}
    (h : ∀ c ∈ cs, KnownType c.commandType) : (carriedOut handlers simulator cs).commands = cs := by
  exact foldl_dispatch_commands handlers h

theorem processTraceFile_eq_ok_iff {simulator : σ} {file : List Char} {run : TraceRun σ} :
    processTraceFile handlers simulator file = .ok run ↔
      ∃ os, ReadInto (fields '\n' file) os ∧
        run = carriedOut handlers simulator os.reduceOption := by
  constructor
  · intro hrun
    obtain ⟨run₁, hfold, hlast⟩ := bind_eq_ok.1 hrun
    obtain ⟨os, hos, rfl⟩ := (foldlM_line_eq_ok_iff handlers).1 hfold
    cases hlast
    exact ⟨os, hos, rfl⟩
  · rintro ⟨os, hos, rfl⟩
    exact bind_eq_ok.2 ⟨_, (foldlM_line_eq_ok_iff handlers).2 ⟨os, hos, rfl⟩, rfl⟩

/-- The run tells the commands: only lines that are read into them carry them out. -/
theorem processTraceFile_eq_carriedOut_iff {simulator : σ} {file : List Char} {cs : List Command}
    (h : ∀ c ∈ cs, KnownType c.commandType) :
    processTraceFile handlers simulator file = .ok (carriedOut handlers simulator cs) ↔
      ∃ os, ReadInto (fields '\n' file) os ∧ os.reduceOption = cs := by
  rw [processTraceFile_eq_ok_iff]
  constructor
  · rintro ⟨os, hos, heq⟩
    refine ⟨os, hos, ?_⟩
    rw [← carriedOut_commands handlers simulator hos.known, ← heq,
      carriedOut_commands handlers simulator h]
  · rintro ⟨os, hos, rfl⟩
    exact ⟨os, hos, rfl⟩

end Reading

/-! ## The lines that are read back -/

/-- A command that the writer can write. -/
structure Sendable (c : Command) : Prop where
  known : KnownType c.commandType
  kernelId : 0 ≤ c.kernelId
  deviceIndex : 0 ≤ c.deviceIndex
  streamIndex : 0 ≤ c.streamIndex
  timestamp : 0 ≤ c.timestamp
  togPath : ',' ∉ c.togPath ∧ '\n' ∉ c.togPath
  attributePath : ',' ∉ c.attributePath ∧ '\n' ∉ c.attributePath

/-- The numbers of a command fit the types of the reader. -/
structure FitsReader (c : Command) : Prop where
  kernelId : c.kernelId < 2 ^ 32
  deviceIndex : c.deviceIndex < 2 ^ 31
  streamIndex : c.streamIndex < 2 ^ 31
  timestamp : c.timestamp < 2 ^ 31

/-- The fields of a command, as they stand on its line. -/
def commandFields (c : Command) : List (List Char) :=
  [c.commandType, decimal c.kernelId, decimal c.deviceIndex, decimal c.streamIndex, c.togPath,
    c.attributePath, decimal c.timestamp]

theorem text_eq_intercalate (c : Command) : c.text = [','].intercalate (commandFields c) := rfl

theorem KnownType.not_mem {t : List Char} (h : KnownType t) {d : Char}
    (hd : d = ',' ∨ d = '\n') : d ∉ t := by
  rcases h with rfl | rfl <;> rcases hd with rfl | rfl <;> decide

theorem KnownType.head {t : List Char} (h : KnownType t) :
    t.head? = some 'L' ∨ t.head? = some 'D' := by
  rcases h with rfl | rfl
  · exact .inl rfl
  · exact .inr rfl

/-- No field of a command that is written holds a delimiter. -/
theorem Sendable.not_mem_fields {c : Command} (h : Sendable c) {d : Char}
    (hd : d = ',' ∨ d = '\n') : ∀ f ∈ commandFields c, d ∉ f := by
  have hdigit : d.isDigit = false := by rcases hd with rfl | rfl <;> rfl
  intro f hf
  simp only [commandFields, List.mem_cons, List.not_mem_nil, or_false] at hf
  rcases hf with rfl | rfl | rfl | rfl | rfl | rfl | rfl
  · exact h.known.not_mem hd
  · exact not_mem_decimal_of_nonneg h.kernelId hdigit
  · exact not_mem_decimal_of_nonneg h.deviceIndex hdigit
  · exact not_mem_decimal_of_nonneg h.streamIndex hdigit
  · rcases hd with rfl | rfl
    · exact h.togPath.1
    · exact h.togPath.2
  · rcases hd with rfl | rfl
    · exact h.attributePath.1
    · exact h.attributePath.2
  · exact not_mem_decimal_of_nonneg h.timestamp hdigit

theorem Sendable.fields_text {c : Command} (h : Sendable c) :
    fields ',' c.text = commandFields c :=
  fields_intercalate (h.not_mem_fields (.inl rfl)) rfl (decimal_ne_nil c.timestamp)

theorem Sendable.head_text {c : Command} (h : Sendable c) :
    c.text.head? = some 'L' ∨ c.text.head? = some 'D' := by
  rw [text_eq_intercalate, commandFields, List.intercalate_cons_cons, List.append_assoc,
    List.head?_append]
  rcases h.known.head with hhead | hhead
  · simp [hhead]
  · simp [hhead]

theorem Sendable.newline_not_mem_text {c : Command} (h : Sendable c) : '\n' ∉ c.text := by
  rw [text_eq_intercalate]
  exact not_mem_intercalate (h.not_mem_fields (.inr rfl)) (by simp)

theorem Sendable.readLine_text {c : Command} (h : Sendable c) :
    readLine c.text = (do
      let kernelId ← stoul (decimal c.kernelId)
      let deviceIndex ← stoi (decimal c.deviceIndex)
      let streamIndex ← stoi (decimal c.streamIndex)
      let timestamp ← stoi (decimal c.timestamp)
      return some { c with
        kernelId := (kernelId % 2 ^ 32 : ℕ), deviceIndex, streamIndex, timestamp }) := by
  have hne : c.text ≠ [] := by
    intro hnil
    simpa [hnil] using h.head_text
  have hcomment : c.text.head? ≠ some '#' := by
    intro hhash
    simpa [hhash] using h.head_text
  rw [readLine, if_neg hne, if_neg hcomment, h.fields_text]
  rfl

/-- A command whose numbers fit is read back. -/
theorem Sendable.lineCommand_of_fits {c : Command} (h : Sendable c) (hfits : FitsReader c) :
    lineCommand c.text = .ok (some c) := by
  have hid : ((c.kernelId.natAbs % 2 ^ 32 : ℕ) : ℤ) = c.kernelId := by
    have := hfits.kernelId
    have := h.kernelId
    omega
  have hkernel : stoul (decimal c.kernelId) = .ok c.kernelId.natAbs :=
    (stoul_decimal_eq_ok h.kernelId).2 ⟨by have := hfits.kernelId; omega, rfl⟩
  have hdevice := (stoi_decimal_eq_ok h.deviceIndex).2 ⟨hfits.deviceIndex, rfl⟩
  have hstream := (stoi_decimal_eq_ok h.streamIndex).2 ⟨hfits.streamIndex, rfl⟩
  have htime := (stoi_decimal_eq_ok h.timestamp).2 ⟨hfits.timestamp, rfl⟩
  rw [lineCommand, h.readLine_text, hkernel, hdevice, hstream, htime]
  simp only [bind, Except.bind, pure, Except.pure, Except.map, hid]
  simp [Option.filter, h.known]

/-- A line that does not end the process is read into some command, but into the one that was
written only if its numbers fit. -/
theorem Sendable.lineCommand_eq_ok {c : Command} (h : Sendable c) {o : Option Command}
    (ho : lineCommand c.text = .ok o) : ∃ c', o = some c' ∧ (c' = c → FitsReader c) := by
  rw [lineCommand] at ho
  cases hread : readLine c.text with
  | error e =>
    rw [hread] at ho
    cases ho
  | ok o' =>
    rw [h.readLine_text] at hread
    obtain ⟨kernelId, hkernel, hread⟩ := bind_eq_ok.1 hread
    obtain ⟨deviceIndex, hdevice, hread⟩ := bind_eq_ok.1 hread
    obtain ⟨streamIndex, hstream, hread⟩ := bind_eq_ok.1 hread
    obtain ⟨timestamp, htime, hread⟩ := bind_eq_ok.1 hread
    obtain ⟨hk, rfl⟩ := (stoul_decimal_eq_ok h.kernelId).1 hkernel
    obtain ⟨hd, rfl⟩ := (stoi_decimal_eq_ok h.deviceIndex).1 hdevice
    obtain ⟨hs, rfl⟩ := (stoi_decimal_eq_ok h.streamIndex).1 hstream
    obtain ⟨ht, rfl⟩ := (stoi_decimal_eq_ok h.timestamp).1 htime
    cases hread
    rw [h.readLine_text, hkernel, hdevice, hstream, htime] at ho
    simp only [bind, Except.bind, pure, Except.pure, Except.map, Option.filter, h.known] at ho
    cases ho
    refine ⟨_, rfl, fun heq => ⟨?_, hd, hs, ht⟩⟩
    have hid := congrArg Command.kernelId heq
    simp only at hid
    omega

/-! ## The lines that are passed over -/

/-- The lines that the reader passes over: three forms that it does not read, and the commands of
unknown types if their numbers can be read. -/
def NoCommand (line : List Char) : Prop :=
  line = [] ∨ line.head? = some '#' ∨ (fields ',' line).length ≠ 7 ∨
    ∃ commandType kernelId deviceIndex streamIndex togPath attributePath timestamp,
      fields ',' line =
          [commandType, kernelId, deviceIndex, streamIndex, togPath, attributePath, timestamp] ∧
        ReadsUnsigned kernelId ∧ ReadsInt deviceIndex ∧ ReadsInt streamIndex ∧
        ReadsInt timestamp ∧ ¬ KnownType commandType

theorem lineCommand_eq_ok_none {l : List Char} :
    lineCommand l = .ok none ↔ ∃ o, readLine l = .ok o ∧ ∀ c ∈ o, ¬ KnownType c.commandType := by
  rw [lineCommand]
  cases readLine l with
  | error e =>
    constructor
    · intro hread
      cases hread
    · rintro ⟨o, ho, -⟩
      cases ho
  | ok o =>
    cases o with
    | none => simp [Except.map]
    | some c => simp [Except.map, Option.filter]

theorem readLine_of_length_ne {l : List Char} (h : (fields ',' l).length ≠ 7) :
    readLine l = .ok none := by
  unfold readLine
  split_ifs
  · rfl
  · rfl
  · split
    · rename_i hfields
      simp [hfields] at h
    · rfl

theorem exists_fields_of_length_eq {fs : List (List Char)} (h : fs.length = 7) :
    ∃ t k d s p a w, fs = [t, k, d, s, p, a, w] := by
  match fs, h with
  | [t, k, d, s, p, a, w], _ => exact ⟨t, k, d, s, p, a, w, rfl⟩

section Fields

variable {l t k d s p a w : List Char}

theorem readLine_of_fields (hne : l ≠ []) (hcomment : l.head? ≠ some '#')
    (hfields : fields ',' l = [t, k, d, s, p, a, w]) :
    readLine l = (do
      let kernelId ← stoul k
      let deviceIndex ← stoi d
      let streamIndex ← stoi s
      let timestamp ← stoi w
      return some { commandType := t, kernelId := (kernelId % 2 ^ 32 : ℕ), deviceIndex,
                    streamIndex, togPath := p, attributePath := a, timestamp }) := by
  rw [readLine, if_neg hne, if_neg hcomment, hfields]

theorem passedOver_of_fields (hne : l ≠ []) (hcomment : l.head? ≠ some '#')
    (hfields : fields ',' l = [t, k, d, s, p, a, w]) :
    lineCommand l = .ok none ↔
      ReadsUnsigned k ∧ ReadsInt d ∧ ReadsInt s ∧ ReadsInt w ∧ ¬ KnownType t := by
  rw [lineCommand_eq_ok_none, readLine_of_fields hne hcomment hfields]
  constructor
  · rintro ⟨o, hread, hunknown⟩
    obtain ⟨kernelId, hkernel, hread⟩ := bind_eq_ok.1 hread
    obtain ⟨deviceIndex, hdevice, hread⟩ := bind_eq_ok.1 hread
    obtain ⟨streamIndex, hstream, hread⟩ := bind_eq_ok.1 hread
    obtain ⟨timestamp, htime, hread⟩ := bind_eq_ok.1 hread
    cases hread
    exact ⟨stoul_isOk_iff.1 ⟨_, hkernel⟩, stoi_isOk_iff.1 ⟨_, hdevice⟩,
      stoi_isOk_iff.1 ⟨_, hstream⟩, stoi_isOk_iff.1 ⟨_, htime⟩, hunknown _ rfl⟩
  · rintro ⟨hk, hd, hs, hw, hunknown⟩
    obtain ⟨kernelId, hkernel⟩ := stoul_isOk_iff.2 hk
    obtain ⟨deviceIndex, hdevice⟩ := stoi_isOk_iff.2 hd
    obtain ⟨streamIndex, hstream⟩ := stoi_isOk_iff.2 hs
    obtain ⟨timestamp, htime⟩ := stoi_isOk_iff.2 hw
    refine ⟨_, bind_eq_ok.2 ⟨_, hkernel, bind_eq_ok.2 ⟨_, hdevice, bind_eq_ok.2 ⟨_, hstream,
      bind_eq_ok.2 ⟨_, htime, rfl⟩⟩⟩⟩, ?_⟩
    intro c hc
    cases hc
    exact hunknown

end Fields

theorem lineCommand_eq_ok_none_iff {l : List Char} :
    lineCommand l = .ok none ↔ NoCommand l := by
  by_cases hempty : l = []
  · exact iff_of_true (lineCommand_eq_ok_none.2 ⟨none, by simp [readLine, hempty]⟩) (.inl hempty)
  by_cases hcomment : l.head? = some '#'
  · have hread : readLine l = .ok none := by rw [readLine, if_neg hempty, if_pos hcomment]
    exact iff_of_true (lineCommand_eq_ok_none.2 ⟨none, hread, by simp⟩) (.inr (.inl hcomment))
  by_cases hlength : (fields ',' l).length = 7
  · obtain ⟨t, k, d, s, p, a, w, hfields⟩ := exists_fields_of_length_eq hlength
    rw [passedOver_of_fields hempty hcomment hfields]
    constructor
    · intro h
      exact .inr (.inr (.inr ⟨t, k, d, s, p, a, w, hfields, h⟩))
    · rintro (h | h | h | ⟨t', k', d', s', p', a', w', hfields', h⟩)
      · exact absurd h hempty
      · exact absurd h hcomment
      · exact absurd hlength h
      · rw [hfields] at hfields'
        cases hfields'
        exact h
  · refine iff_of_true (lineCommand_eq_ok_none.2 ⟨none, ?_, by simp⟩) (.inr (.inr (.inl hlength)))
    exact readLine_of_length_ne hlength

/-! ## The file -/

/-- A line of the trace file: a command of the writer, or another text. -/
inductive TraceLine where
  | command (c : Command)
  | other (text : List Char)

namespace TraceLine

def text : TraceLine → List Char
  | command c => c.text
  | other text => text

/-- The command that the line stands for. -/
def sent : TraceLine → Option Command
  | command c => some c
  | other _ => none

/-- Another text is one line, and none that the writer writes. -/
def Valid : TraceLine → Prop
  | command c => Sendable c
  | other text => '\n' ∉ text ∧ ∀ c, Sendable c → text ≠ c.text

/-- What the reader needs of the line. -/
def Readable : TraceLine → Prop
  | command c => FitsReader c
  | other text => NoCommand text

theorem Valid.newline_not_mem {l : TraceLine} (h : l.Valid) : '\n' ∉ l.text := by
  cases l with
  | command c => exact Sendable.newline_not_mem_text h
  | other text => exact h.1

/-- A readable line is read into what it stands for. -/
theorem Valid.lineCommand_text {l : TraceLine} (h : l.Valid) (hl : l.Readable) :
    lineCommand l.text = .ok l.sent := by
  cases l with
  | command c => exact Sendable.lineCommand_of_fits h hl
  | other text => exact lineCommand_eq_ok_none_iff.2 hl

end TraceLine

/-- The file of some lines. -/
def traceText (ls : List TraceLine) : List Char :=
  (ls.map TraceLine.text).flatMap (· ++ ['\n'])

def sentCommands (ls : List TraceLine) : List Command :=
  (ls.map TraceLine.sent).reduceOption

theorem fields_traceText {ls : List TraceLine} (h : ∀ l ∈ ls, l.Valid) :
    fields '\n' (traceText ls) = ls.map TraceLine.text := by
  apply fields_terminated
  intro t ht
  obtain ⟨l, hl, rfl⟩ := List.mem_map.1 ht
  exact (h l hl).newline_not_mem

@[simp] theorem sentCommands_command (c : Command) (ls : List TraceLine) :
    sentCommands (.command c :: ls) = c :: sentCommands ls := rfl

@[simp] theorem sentCommands_other (text : List Char) (ls : List TraceLine) :
    sentCommands (.other text :: ls) = sentCommands ls := rfl

theorem known_of_mem_sentCommands {ls : List TraceLine} (h : ∀ l ∈ ls, l.Valid) :
    ∀ c ∈ sentCommands ls, KnownType c.commandType := by
  intro c hc
  obtain ⟨l, hl, hsent⟩ := List.mem_map.1 (List.reduceOption_mem_iff.1 hc)
  cases l with
  | command c' =>
    cases hsent
    exact (h _ hl).known
  | other text => cases hsent

/-- What the writer is asked to send. -/
structure SendRequest where
  commandType : List Char
  deviceIndex : ℤ
  streamIndex : ℤ
  togPath : List Char
  attributePath : List Char
  timestamp : ℤ

def SendRequest.command (r : SendRequest) (kernelId : ℕ) : Command :=
  { commandType := r.commandType, kernelId, deviceIndex := r.deviceIndex,
    streamIndex := r.streamIndex, togPath := r.togPath, attributePath := r.attributePath,
    timestamp := r.timestamp }

def sendRequest (sim : TOGSimulator) (r : SendRequest) : TOGSimulator × Except SendError ℕ :=
  sim.sendCommand r.commandType r.deviceIndex r.streamIndex r.togPath r.attributePath r.timestamp

/-- A request that fails leaves the file as it is. -/
theorem sendRequest_error {sim : TOGSimulator} {r : SendRequest} {e : SendError}
    (h : (sendRequest sim r).2 = .error e) : (sendRequest sim r).1.traceFile = sim.traceFile := by
  unfold sendRequest TOGSimulator.sendCommand at h ⊢
  split at h
  · rfl
  · rfl
  · by_cases hw : sim.writable
    · simp [hw] at h
    · simp [hw]

/-- A request that succeeds appends its line under the next id. -/
theorem sendRequest_running {sim : TOGSimulator} {r : SendRequest}
    (hrunning : sim.process = .running) (hwritable : sim.writable = true) :
    (sendRequest sim r).1 = { sim with
      nextKernelId := sim.nextKernelId + 1
      traceFile := sim.traceFile ++ traceText [.command (r.command sim.nextKernelId)]
      traceLog := sim.traceLog ++ traceText [.command (r.command sim.nextKernelId)] } := by
  simp [sendRequest, TOGSimulator.sendCommand, hrunning, hwritable, traceText, TraceLine.text,
    SendRequest.command]

theorem traceText_append (ls ls' : List TraceLine) :
    traceText (ls ++ ls') = traceText ls ++ traceText ls' := by
  simp [traceText]

/-- The file of a run of requests holds a line for each, with the ids in their order. -/
theorem traceFile_of_requests {sim : TOGSimulator} (rs : List SendRequest)
    (hrunning : sim.process = .running) (hwritable : sim.writable = true) :
    (rs.foldl (fun sim r => (sendRequest sim r).1) sim).traceFile =
      sim.traceFile ++ traceText
        ((rs.zipIdx sim.nextKernelId).map fun p => .command (p.1.command p.2)) := by
  induction rs generalizing sim with
  | nil => simp [traceText]
  | cons r rs ih =>
    rw [List.foldl_cons, sendRequest_running hrunning hwritable,
      ih (by simpa using hrunning) (by simpa using hwritable), List.append_assoc,
      ← traceText_append]
    simp

/-- Every command is read into some command: there are at least as many of these. -/
theorem length_sentCommands_le {ls : List TraceLine} {os : List (Option Command)}
    (h : ∀ l ∈ ls, l.Valid) (hos : ReadInto (ls.map TraceLine.text) os) :
    (sentCommands ls).length ≤ os.reduceOption.length := by
  induction ls generalizing os with
  | nil => exact Nat.zero_le _
  | cons l ls ih =>
    cases hos with
    | @cons _ o _ os ho hos =>
      have htail := ih (fun l hl => h l (List.mem_cons_of_mem _ hl)) hos
      cases l with
      | command c =>
        obtain ⟨c', rfl, -⟩ := Sendable.lineCommand_eq_ok (h _ List.mem_cons_self) ho
        simpa using htail
      | other text =>
        cases o with
        | none => simpa using htail
        | some c' => simpa using Nat.le_succ_of_le htail

/-- If what is read is what was sent, there is nothing else among it, and every line is readable. -/
theorem readable_of_reduceOption_eq {ls : List TraceLine} {os : List (Option Command)}
    (h : ∀ l ∈ ls, l.Valid) (hos : ReadInto (ls.map TraceLine.text) os)
    (heq : os.reduceOption = sentCommands ls) : ∀ l ∈ ls, l.Readable := by
  induction ls generalizing os with
  | nil => simp
  | cons l ls ih =>
    have hls : ∀ l ∈ ls, l.Valid := fun l hl => h l (List.mem_cons_of_mem _ hl)
    cases hos with
    | @cons _ o _ os ho hos =>
      cases l with
      | command c =>
        obtain ⟨c', rfl, hfits⟩ := Sendable.lineCommand_eq_ok (h _ List.mem_cons_self) ho
        rw [List.reduceOption_cons_of_some, sentCommands_command] at heq
        obtain ⟨hc', htail⟩ := List.cons.inj heq
        exact List.forall_mem_cons.2 ⟨hfits hc', ih hls hos htail⟩
      | other text =>
        cases o with
        | none =>
          rw [List.reduceOption_cons_of_none, sentCommands_other] at heq
          exact List.forall_mem_cons.2 ⟨lineCommand_eq_ok_none_iff.1 ho, ih hls hos heq⟩
        | some c' =>
          -- A text that is read as a command makes the commands too many.
          have hlength := length_sentCommands_le hls hos
          rw [List.reduceOption_cons_of_some, sentCommands_other] at heq
          rw [← heq, List.length_cons] at hlength
          omega

theorem readInto_sent {ls : List TraceLine} (h : ∀ l ∈ ls, l.Valid) (hls : ∀ l ∈ ls, l.Readable) :
    ReadInto (ls.map TraceLine.text) (ls.map TraceLine.sent) := by
  rw [ReadInto, List.forall₂_map_left_iff, List.forall₂_map_right_iff, List.forall₂_same]
  intro l hl
  exact (h l hl).lineCommand_text (hls l hl)

/-- The commands of a file are carried out as they were written, and its other lines are passed
over, if and only if every line is readable. -/
theorem traceFile_round_trip_iff {σ : Type} (handlers : TraceHandlers σ) (simulator : σ)
    (ls : List TraceLine) (h : ∀ l ∈ ls, l.Valid) :
    processTraceFile handlers simulator (traceText ls) =
        .ok (carriedOut handlers simulator (sentCommands ls)) ↔ ∀ l ∈ ls, l.Readable := by
  rw [processTraceFile_eq_carriedOut_iff handlers (known_of_mem_sentCommands h),
    fields_traceText h]
  constructor
  · rintro ⟨os, hos, heq⟩
    exact readable_of_reduceOption_eq h hos heq
  · intro hls
    exact ⟨ls.map TraceLine.sent, readInto_sent h hls, rfl⟩

/-- A launch of a kernel, and a comment. -/
def launchAndComment : List TraceLine :=
  [.command { commandType := launchKernelType, kernelId := 3, deviceIndex := 0, streamIndex := 1,
              togPath := [], attributePath := "a b".toList, timestamp := 20 },
    .other "# second".toList]

theorem traceFile_round_trip_iff_launch :
    processTraceFile ⟨fun _ _ _ _ _ _ n => n + 1, id⟩ (0 : ℕ) (traceText launchAndComment) =
        .ok (carriedOut ⟨fun _ _ _ _ _ _ n => n + 1, id⟩ 0 (sentCommands launchAndComment)) ↔
      ∀ l ∈ launchAndComment, l.Readable := by
  apply traceFile_round_trip_iff
  intro l hl
  simp only [launchAndComment, List.mem_cons, List.not_mem_nil, or_false] at hl
  rcases hl with rfl | rfl
  · exact ⟨.inl rfl, by decide, by decide, by decide, by decide, by decide, by decide⟩
  · refine ⟨by decide, fun c hc heq => ?_⟩
    have hhead := hc.head_text
    rw [← heq] at hhead
    simp at hhead

/-- A line whose kernel id is no number ends the process. -/
theorem traceFile_process_ends :
    (TraceLine.other "STATUS,x,0,0,,,0".toList).Valid ∧
      ∀ run, processTraceFile ⟨fun _ _ _ _ _ _ n => n + 1, id⟩ (0 : ℕ)
        (traceText [.other "STATUS,x,0,0,,,0".toList]) ≠ .ok run := by
  constructor
  · refine ⟨by decide, fun c hc heq => ?_⟩
    have hhead := hc.head_text
    rw [← heq] at hhead
    simp at hhead
  · intro run hrun
    have hends : (processTraceFile ⟨fun _ _ _ _ _ _ n => n + 1, id⟩ (0 : ℕ)
        (traceText [.other "STATUS,x,0,0,,,0".toList])).toOption.isNone := by decide +kernel
    rw [hrun] at hends
    cases hends

end PyTorchSim.Analysis
