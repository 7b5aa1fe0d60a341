import Tikv.Encryption.FileDictFile
import Tikv.Foundation.Execution

/-!
# The file dictionary survives crashes

With the log enabled, the dictionary file is a rewritten dictionary followed by the records of the
updates since. A crash keeps what was synced and any prefix of what was appended since; a new file
takes the place of the old one as a whole. A crash can happen between any two things a call does to
the file, also while the file is opened again.

`Kept` says what the file holds at each of these moments: a dictionary that was compacted, and the
records of the later updates, of which the first are synced. Every call keeps it (`Kept.append`,
`Kept.persist`), and a crash leaves a file that is read as the dictionary after some prefix of the
updates, which has all that were synced or compacted (`Kept.recovery`).
-/

namespace Tikv.Encryption

open List FileDictionaryFile Update

open AppendFile (Effect)

/-- The calls on an open file. -/
inductive Call
  | insert (name : String) (info : FileInfo) (synced : Bool)
  | remove (name : String) (synced : Bool)
  | sync

namespace Call

/-- The updates of the dictionary a call makes. -/
def updates : Call → List Update
  | insert name info _ => [(name, .insert info)]
  | remove name _ => [(name, .remove)]
  | sync => []

theorem updates_eq (c : Call) : c.updates = [] ∨ ∃ u, c.updates = [u] := by
  cases c with
  | insert name info synced | remove name synced => exact .inr ⟨_, rfl⟩
  | sync => exact .inl rfl

def run (fmt : Format) (f : FileDictionaryFile) :
    Call → Except Error (FileDictionaryFile × List FileEffect)
  | insert name info synced => f.insert fmt name info synced
  | remove name synced => f.remove fmt name synced
  | sync => f.sync.map fun effects => (f, effects)

/-- Names and infos are short, a removed name is present, and the dictionary can be held in
memory. -/
def Allowed (fmt : Format) (fileDict : FileDictionary) (c : Call) : Prop :=
  ∀ u ∈ c.updates, u.Short fmt ∧ u.Applicable fileDict ∧ Fits fmt (u.apply fileDict)

end Call

/-- What has happened since the file was opened. -/
structure Session where
  /-- The dictionary when it was opened. -/
  base : FileDictionary
  updates : List Update
  /-- The number of updates up to the last one that was synced or compacted. -/
  durable : ℕ

namespace Session

/-- The dictionary after the first updates. -/
def dictAt (s : Session) (n : ℕ) : FileDictionary := (s.updates.take n).foldl apply s.base

/-- Whether all updates are on the disk after this. -/
def isDurable : FileEffect → Bool
  | .append _ => false
  | .syncAll | .install _ => true

/-- A call was made, and this much of it was done to the file. -/
def record (s : Session) (c : Call) (effects : List FileEffect) : Session where
  base := s.base
  updates := s.updates ++ c.updates
  durable := if effects.any isDurable then (s.updates ++ c.updates).length else s.durable

end Session

open Session

/-- The process is running, or it is not and there is a file. -/
inductive Phase
  | up (f : FileDictionaryFile) (file : AppendFile UInt8)
  | down (file : Bytes)

structure DictState where
  session : Session
  phase : Phase

inductive DictEvent
  | call (c : Call)
  /-- A crash in a call, of which the first parts were done. -/
  | crash (c : Call) (done : ℕ) (left : Bytes)
  | openFile (fileRewriteThreshold : ℕ)
  /-- A crash while the file is opened. -/
  | crashOpen (fileRewriteThreshold : ℕ) (done : ℕ) (left : Bytes)

/-- A step of the process with its file. -/
inductive DictStep (fmt : Format) : DictState → DictEvent → DictState → Prop
  | call {s f file c f' effects} : c.Allowed fmt f.fileDict → c.run fmt f = .ok (f', effects) →
    DictStep fmt ⟨s, .up f file⟩ (.call c)
      ⟨s.record c effects, .up f' (effects.foldl AppendFile.apply file)⟩
  | crash {s f file c f' effects done left} : c.Allowed fmt f.fileDict →
    c.run fmt f = .ok (f', effects) →
    ((effects.take done).foldl AppendFile.apply file).Survives left →
    DictStep fmt ⟨s, .up f file⟩ (.crash c done left)
      ⟨s.record c (effects.take done), .down left⟩
  | openFile {s file fileRewriteThreshold f fileDict effects} :
    openFile fmt file true fileRewriteThreshold false =
      .ok (f, fileDict, effects) →
    DictStep fmt ⟨s, .down file⟩ (.openFile fileRewriteThreshold)
      ⟨⟨fileDict, [], 0⟩, .up f (effects.foldl AppendFile.apply ⟨file, []⟩)⟩
  | crashOpen {s file fileRewriteThreshold f fileDict effects done left} :
    openFile fmt file true fileRewriteThreshold false =
      .ok (f, fileDict, effects) →
    ((effects.take done).foldl AppendFile.apply ⟨file, []⟩).Survives left →
    DictStep fmt ⟨s, .down file⟩ (.crashOpen fileRewriteThreshold done left) ⟨s, .down left⟩

/-- The file was just created. -/
def DictState.fresh (fmt : Format) (fileRewriteThreshold : ℕ) : DictState :=
  let (f, effects) := new fmt true fileRewriteThreshold
  ⟨⟨.empty, [], 0⟩, .up f (effects.foldl AppendFile.apply ⟨[], []⟩)⟩

/-- The process begins with a new file, or with one that can be read. -/
inductive DictStart (fmt : Format) : DictState → Prop
  | new (fileRewriteThreshold : ℕ) : Fits fmt .empty →
    DictStart fmt (.fresh fmt fileRewriteThreshold)
  | existing {file fileDict} : recovery fmt file = .ok fileDict → Fits fmt fileDict →
    DictStart fmt ⟨⟨fileDict, [], 0⟩, .down file⟩

/-! ### What a call does -/

section Calls

variable {fmt : Format} {f f' : FileDictionaryFile} {c : Call} {effects : List FileEffect}

/-- The effect makes everything durable that is in the dictionary. -/
def Persists (fmt : Format) (fileDict : FileDictionary) (e : FileEffect) : Prop :=
  e = .syncAll ∨ e = .install (rewriteBytes fmt true fileDict)

/-- The file is open with the log enabled. -/
structure Logging (f : FileDictionaryFile) : Prop where
  enableLog : f.enableLog = true
  appendFile : f.appendFile = true

theorem rewrite_spec (fmt : Format) (hf : f.enableLog = true) :
    Logging (f.rewrite fmt).1 ∧ (f.rewrite fmt).1.fileDict = f.fileDict ∧
      (f.rewrite fmt).2 = [.install (rewriteBytes fmt true f.fileDict)] := by
  rw [rewrite, hf]
  exact ⟨⟨rfl, rfl⟩, rfl, rfl⟩

theorem checkCompact_spec (fmt : Format) (hf : Logging f) :
    Logging (f.checkCompact fmt).1 ∧ (f.checkCompact fmt).1.fileDict = f.fileDict ∧
      ∀ e ∈ (f.checkCompact fmt).2, Persists fmt f.fileDict e := by
  unfold checkCompact
  split
  · have hf' : { f with removed := 0 }.enableLog = true := hf.enableLog
    obtain ⟨hlog, hdict, heffects⟩ := rewrite_spec fmt hf'
    refine ⟨hlog, hdict, fun e he => .inr ?_⟩
    rw [heffects] at he
    exact mem_singleton.mp he
  · exact ⟨hf, rfl, nofun⟩

/-- A record is appended, and what follows makes it durable. -/
theorem update_spec (hf : Logging f) {u : Update} {removed : ℕ} {sync : Bool}
    (h : f.update fmt u removed sync = .ok (f', effects)) :
    Logging f' ∧ f'.fileDict = u.apply f.fileDict ∧
      ∃ rest, effects = .append (convertRecordToBytes fmt u) :: rest ∧
        ∀ e ∈ rest, Persists fmt f'.fileDict e := by
  rw [update, if_pos hf.enableLog, if_pos hf.appendFile] at h
  have hg : Logging (f.appended fmt u removed) := ⟨hf.enableLog, hf.appendFile⟩
  obtain ⟨hlog, hdict, hpersists⟩ := checkCompact_spec fmt hg
  obtain ⟨rfl, rfl⟩ := ok_mk_inj h
  refine ⟨hlog, hdict, _, rfl, fun e he => ?_⟩
  rw [hdict]
  cases sync with
  | false => exact hpersists e he
  | true =>
    rcases mem_cons.mp he with rfl | he
    · exact .inl rfl
    · exact hpersists e he

/-- A call appends the records of its updates, and what follows makes them durable. -/
theorem Call.run_spec (hf : Logging f) (h : c.run fmt f = .ok (f', effects)) :
    Logging f' ∧ f'.fileDict = c.updates.foldl apply f.fileDict ∧
      ∃ rest, effects = c.updates.map (fun u => .append (convertRecordToBytes fmt u)) ++ rest ∧
        ∀ e ∈ rest, Persists fmt f'.fileDict e := by
  cases c with
  | insert name info synced | remove name synced => exact update_spec hf h
  | sync =>
    obtain ⟨effects, heffects, heq⟩ := map_eq_ok.mp h
    obtain ⟨rfl, rfl⟩ := Prod.mk.inj heq
    rw [FileDictionaryFile.sync, if_pos hf.enableLog, if_pos hf.appendFile] at heffects
    obtain rfl := Except.ok.inj heffects
    exact ⟨hf, rfl, _, rfl, fun e he => .inl (mem_singleton.mp he)⟩

variable {fileDict : FileDictionary}

/-- A file that can be read is opened, and the dictionary is compacted. -/
theorem openFile_eq_ok {file : Bytes} (h : recovery fmt file = .ok fileDict) (enableLog : Bool)
    (fileRewriteThreshold : ℕ) (skipRewrite : Bool) :
    ∃ f effects, openFile fmt file enableLog fileRewriteThreshold skipRewrite =
      .ok (f, fileDict, effects) := by
  rw [openFile, h]
  cases skipRewrite with
  | true | false => exact ⟨_, _, rfl⟩

theorem openFile_spec {file : Bytes} {fileRewriteThreshold : ℕ}
    (h : openFile fmt file true fileRewriteThreshold false =
      .ok (f, fileDict, effects)) :
    recovery fmt file = .ok fileDict ∧ Logging f ∧ f.fileDict = fileDict ∧
      effects = [.install (rewriteBytes fmt true fileDict)] := by
  obtain ⟨fileDict', hrecovery, h⟩ := bind_eq_ok.mp h
  obtain ⟨hf, h⟩ := ok_mk_inj h
  obtain ⟨rfl, heffects⟩ := Prod.mk.inj h
  subst hf heffects
  exact ⟨hrecovery, ⟨rfl, rfl⟩, rfl, rfl⟩

end Calls

/-! ### What the file keeps -/

variable {fileDict fileDict' : FileDictionary}

theorem Update.eq_apply_of_replay {u : Update} (h : u.replay fileDict = .ok fileDict') :
    fileDict' = u.apply fileDict := by
  obtain ⟨name, record⟩ := u
  cases record with
  | insert info => exact (Except.ok.inj h).symm
  | remove =>
    rw [replay] at h
    split_ifs at h
    exact (Except.ok.inj h).symm

/-- Records that can be replayed can be replayed in part, and do what the updates did. -/
theorem Update.foldlM_replay_take {log : List Update}
    (h : log.foldlM replay fileDict = .ok fileDict') (n : ℕ) :
    (log.take n).foldlM replay fileDict =
      .ok ((log.take n).foldl apply fileDict) := by
  induction log generalizing fileDict n with
  | nil =>
    rw [take_nil]
    rfl
  | cons u log ih =>
    obtain ⟨next, hnext, h⟩ := bind_eq_ok.mp h
    obtain rfl := eq_apply_of_replay hnext
    cases n with
    | zero => rfl
    | succ n =>
      rw [take_succ_cons, foldlM_cons, hnext, ok_bind, ih h]
      rfl

/-- The dictionary after all updates. -/
def Session.dict (s : Session) : FileDictionary := s.updates.foldl apply s.base

theorem Session.dict_concat (s : Session) (u : Update) (durable : ℕ) :
    dict ⟨s.base, s.updates ++ [u], durable⟩ = u.apply s.dict := by
  simp [dict]

/-- The file holds a compacted dictionary and the records of the updates since, and the first
`durable` updates are in what is synced. -/
structure Kept (fmt : Format) (s : Session) (file : AppendFile UInt8) (pre log : List Update)
    (k : ℕ) : Prop where
  updates : s.updates = pre ++ log
  holds : file.Holds (convertRecordToBytes fmt)
    (rewriteBytes fmt true (pre.foldl apply s.base)) log k
  fits : Fits fmt (pre.foldl apply s.base)
  short : ∀ u ∈ log, u.Short fmt
  /-- A removed name is present when the record is replayed. -/
  replays : log.foldlM replay (pre.foldl apply s.base) = .ok s.dict
  durable : s.durable ≤ pre.length + k

namespace Kept

variable {fmt : Format} {s : Session} {file : AppendFile UInt8} {pre log : List Update} {k : ℕ}

/-- A file that was just installed. -/
theorem install (file : AppendFile UInt8) (hfits : Fits fmt s.dict)
    (hdurable : s.durable ≤ s.updates.length) :
    Kept fmt s (file.apply (.install (rewriteBytes fmt true s.dict))) s.updates [] 0 where
  updates := (append_nil _).symm
  holds := .install _ _ file
  fits := hfits
  short := nofun
  replays := rfl
  durable := hdurable

section

variable (h : Kept fmt s file pre log k)
include h

theorem append {u : Update} (hshort : u.Short fmt) (happlicable : u.Applicable s.dict) :
    Kept fmt { s with updates := s.updates ++ [u] }
      (file.apply (.append (convertRecordToBytes fmt u))) pre (log ++ [u]) k where
  updates := by rw [h.updates, append_assoc]
  holds := h.holds.append u
  fits := h.fits
  short := forall_mem_append.mpr ⟨h.short, forall_mem_singleton.mpr hshort⟩
  replays := by
    rw [foldlM_append, h.replays, ok_bind, dict_concat]
    exact bind_eq_ok.mpr ⟨_, replay_of_applicable happlicable, rfl⟩
  durable := h.durable

/-- Once everything is persisted, every update is durable. -/
theorem persist_one (hfits : Fits fmt s.dict) {e : FileEffect} (he : Persists fmt s.dict e) :
    ∃ pre log k, Kept fmt { s with durable := s.updates.length } (file.apply e) pre log k := by
  rcases he with rfl | rfl
  · refine ⟨pre, log, log.length, h.updates, h.holds.syncAll, h.fits, h.short, h.replays, ?_⟩
    exact le_of_eq (by rw [h.updates, length_append])
  · exact ⟨_, _, _, install file (s := { s with durable := s.updates.length }) hfits le_rfl⟩

variable {effects : List FileEffect}

/-- The same for several effects. -/
theorem persist (hfits : Fits fmt s.dict) (heffects : ∀ e ∈ effects, Persists fmt s.dict e) :
    ∃ pre log k, Kept fmt { s with durable := if effects.any isDurable then
      s.updates.length else s.durable } (effects.foldl AppendFile.apply file) pre log k := by
  induction effects generalizing s file pre log k with
  | nil => exact ⟨pre, log, k, h⟩
  | cons e effects ih =>
    obtain ⟨he, heffects⟩ := forall_mem_cons.mp heffects
    have hdurable : isDurable e = true := by
      rcases he with rfl | rfl <;> rfl
    obtain ⟨pre', log', k', h'⟩ := h.persist_one hfits he
    obtain ⟨pre', log', k', h'⟩ := ih h' hfits heffects
    refine ⟨pre', log', k', ?_⟩
    simpa [hdurable] using h'

/-- A crash leaves a file that reads as the dictionary after some of the updates, with every update
that is durable. -/
theorem recovery {left : Bytes} (hleft : file.Survives left) :
    ∃ n, s.durable ≤ n ∧ n ≤ s.updates.length ∧
      Encryption.recovery fmt left = .ok (s.dictAt n) := by
  obtain ⟨cut, rfl, hcut, hsynced⟩ := h.holds.of_survives hleft
  obtain ⟨n, hn, hreplay, hall⟩ := (encodes fmt).replay_cut h.short h.replays hcut
  refine ⟨pre.length + n, ?_, ?_, ?_⟩
  · exact h.durable.trans (Nat.add_le_add_left (hall k h.holds.le hsynced) _)
  · rw [h.updates, length_append]
    exact Nat.add_le_add_left hn _
  · rw [recovery_log h.fits, hreplay, foldlM_replay_take h.replays, dictAt,
      h.updates, take_length_add_append, foldl_append]

theorem recovery_content :
    Encryption.recovery fmt file.content = .ok s.dict := by
  rw [h.holds.content_eq, recovery_log h.fits, (encodes fmt).replay_all h.short h.replays]

/-- A call, or the first parts of one that include the record. -/
theorem record {c : Call} (hc : c.Allowed fmt s.dict) (hfits : Fits fmt s.dict)
    {rest : List FileEffect}
    (hrest : ∀ e ∈ rest, Persists fmt (c.updates.foldl apply s.dict) e)
    (heffects : effects = c.updates.map (fun u => .append (convertRecordToBytes fmt u)) ++ rest) :
    ∃ pre log k, Kept fmt (s.record c effects) (effects.foldl AppendFile.apply file) pre log k := by
  subst heffects
  rcases c.updates_eq with hu | ⟨u, hu⟩
  · rw [hu] at hrest
    have := h.persist hfits hrest
    simpa [record, hu] using this
  · rw [hu] at hrest
    obtain ⟨hshort, happlicable, hfits⟩ := hc u (hu ▸ mem_singleton_self u)
    rw [← s.dict_concat u s.durable] at hfits
    have := (h.append hshort happlicable).persist hfits
      (fun e he => by rw [s.dict_concat]; exact hrest e he)
    simpa [record, hu, isDurable] using this

end

end Kept

/-! ### The invariant -/

/-- Every dictionary of the session can be held in memory; while the process runs the file keeps
the updates, and otherwise it reads as a dictionary with every durable update. -/
structure DictState.Inv (fmt : Format) (s : DictState) : Prop where
  fits : ∀ p, p <+: s.session.updates → Fits fmt (p.foldl apply s.session.base)
  phase : match s.phase with
    | .up f file => Logging f ∧ f.fileDict = s.session.dict ∧
      ∃ pre log k, Kept fmt s.session file pre log k
    | .down file => ∃ n, s.session.durable ≤ n ∧ n ≤ s.session.updates.length ∧
      recovery fmt file = .ok (s.session.dictAt n)

section Steps

variable {fmt : Format} {s : Session} {f f' : FileDictionaryFile} {file : AppendFile UInt8}
  {c : Call} {effects : List FileEffect}

theorem fits_record (hfits : ∀ p, p <+: s.updates → Fits fmt (p.foldl apply s.base))
    (hc : c.Allowed fmt s.dict) (p : List Update) (hp : p <+: (s.record c effects).updates) :
    Fits fmt (p.foldl apply s.base) := by
  rcases c.updates_eq with hu | ⟨u, hu⟩
  · rw [record, hu, append_nil] at hp
    exact hfits p hp
  · rw [record, hu] at hp
    rcases prefix_concat_iff.mp hp with rfl | hp
    · rw [foldl_append]
      exact (hc u (hu ▸ mem_singleton_self u)).2.2
    · exact hfits p hp

/-- After a call the file keeps the updates. -/
theorem call_inv (h : DictState.Inv fmt ⟨s, .up f file⟩) (hc : c.Allowed fmt f.fileDict)
    (hrun : c.run fmt f = .ok (f', effects)) :
    DictState.Inv fmt ⟨s.record c effects, .up f' (effects.foldl AppendFile.apply file)⟩ := by
  obtain ⟨hlog, hdict, pre, log, k, hkept⟩ := h.phase
  obtain ⟨hlog', hdict', rest, heffects, hrest⟩ := Call.run_spec hlog hrun
  rw [hdict] at hc hdict'
  rw [hdict'] at hrest
  refine ⟨fits_record h.fits hc, hlog', ?_, ?_⟩
  · rw [hdict', dict, dict, record, foldl_append]
  · exact hkept.record hc (h.fits _ (prefix_refl _)) hrest heffects

/-- A crash in the middle of a call leaves a dictionary with every durable update. -/
theorem crash_inv (h : DictState.Inv fmt ⟨s, .up f file⟩) (hc : c.Allowed fmt f.fileDict)
    (hrun : c.run fmt f = .ok (f', effects)) {done : ℕ} {left : Bytes}
    (hleft : ((effects.take done).foldl AppendFile.apply file).Survives left) :
    DictState.Inv fmt ⟨s.record c (effects.take done), .down left⟩ := by
  obtain ⟨hlog, hdict, pre, log, k, hkept⟩ := h.phase
  obtain ⟨-, hdict', rest, heffects, hrest⟩ := Call.run_spec hlog hrun
  rw [hdict] at hc hdict'
  rw [hdict'] at hrest
  refine ⟨fits_record h.fits hc, ?_⟩
  by_cases hdone : effects.take done = []
  · -- The call has done nothing to the file yet.
    rw [hdone] at hleft ⊢
    obtain ⟨n, hdurable, hn, hrecovery⟩ := hkept.recovery hleft
    refine ⟨n, hdurable, ?_, ?_⟩
    · rw [record, length_append]
      exact Nat.le_add_right_of_le hn
    · rw [hrecovery, dictAt, dictAt, record,
        take_append_of_le_length hn]
  · -- The record is appended, and some of what follows is done.
    have htake : ∃ m, effects.take done =
        c.updates.map (fun u => .append (convertRecordToBytes fmt u)) ++ rest.take m := by
      rcases c.updates_eq with hu | ⟨u, hu⟩
      · exact ⟨done, by rw [heffects, hu]; rfl⟩
      · cases done with
        | zero => exact absurd take_zero hdone
        | succ m => exact ⟨m, by rw [heffects, hu]; rfl⟩
    obtain ⟨m, htake⟩ := htake
    obtain ⟨pre', log', k', hkept'⟩ := hkept.record hc (h.fits _ (prefix_refl _))
      (fun e he => hrest e (mem_of_mem_take he)) htake
    exact hkept'.recovery hleft

variable {fileDict : FileDictionary}

/-- Opening compacts what it read; the next session begins there. -/
theorem openFile_inv {file : Bytes} {fileRewriteThreshold : ℕ}
    (h : DictState.Inv fmt ⟨s, .down file⟩)
    (hopen : openFile fmt file true fileRewriteThreshold false =
      .ok (f, fileDict, effects)) :
    DictState.Inv fmt
      ⟨⟨fileDict, [], 0⟩, .up f (effects.foldl AppendFile.apply ⟨file, []⟩)⟩ := by
  obtain ⟨n, -, -, hrecovery⟩ := h.phase
  obtain ⟨hrecovery', hlog, hdict, rfl⟩ := openFile_spec hopen
  obtain rfl := ok_unique hrecovery' hrecovery
  have hfits : Fits fmt (s.dictAt n) := h.fits _ (List.take_prefix _ _)
  refine ⟨fun p hp => ?_, hlog, hdict, _, _, _, Kept.install (s := ⟨s.dictAt n, [], 0⟩)
    ⟨file, []⟩ hfits (Nat.zero_le _)⟩
  obtain rfl := prefix_nil.mp hp
  exact hfits

/-- A crash while the file is opened leaves the old file or the compacted one. -/
theorem crashOpen_inv {file left : Bytes} {fileRewriteThreshold done : ℕ}
    (h : DictState.Inv fmt ⟨s, .down file⟩)
    (hopen : openFile fmt file true fileRewriteThreshold false =
      .ok (f, fileDict, effects))
    (hleft : ((effects.take done).foldl AppendFile.apply ⟨file, []⟩).Survives left) :
    DictState.Inv fmt ⟨s, .down left⟩ := by
  obtain ⟨n, hdurable, hn, hrecovery⟩ := h.phase
  obtain ⟨hrecovery', -, -, rfl⟩ := openFile_spec hopen
  obtain rfl := ok_unique hrecovery' hrecovery
  refine ⟨h.fits, n, hdurable, hn, ?_⟩
  obtain ⟨cut, hcut, rfl⟩ := hleft
  cases done with
  | zero =>
    obtain rfl := prefix_nil.mp hcut
    rw [append_nil]
    exact hrecovery
  | succ done =>
    rw [take_succ_cons, take_nil] at hcut ⊢
    obtain rfl := prefix_nil.mp hcut
    rw [append_nil]
    exact recovery_rewriteBytes (h.fits _ (List.take_prefix _ _)) true

end Steps

theorem DictStart.inv {fmt : Format} {s : DictState} (h : DictStart fmt s) : s.Inv fmt := by
  cases h with
  | new fileRewriteThreshold hfits =>
    refine ⟨fun p hp => ?_, ⟨rfl, rfl⟩, rfl, _, _, _,
      Kept.install (s := ⟨.empty, [], 0⟩) ⟨[], []⟩ hfits (Nat.zero_le _)⟩
    obtain rfl := prefix_nil.mp hp
    exact hfits
  | existing hrecovery hfits =>
    refine ⟨fun p hp => ?_, 0, Nat.le_refl _, Nat.le_refl _, hrecovery⟩
    obtain rfl := prefix_nil.mp hp
    exact hfits

theorem DictStep.inv {fmt : Format} {s s' : DictState} {e : DictEvent} (h : s.Inv fmt)
    (hstep : DictStep fmt s e s') : s'.Inv fmt := by
  cases hstep with
  | call hc hrun => exact call_inv h hc hrun
  | crash hc hrun hleft => exact crash_inv h hc hrun hleft
  | openFile hopen => exact openFile_inv h hopen
  | crashOpen hopen hleft => exact crashOpen_inv h hopen hleft

section Torn

end Torn

end Tikv.Encryption
