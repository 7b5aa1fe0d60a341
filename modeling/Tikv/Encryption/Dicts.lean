import Tikv.Encryption.FileDictCrash
import Tikv.Foundation.AssocMap

/-!
# The dictionaries of the data key manager

`Dicts` answers which key and initialization vector a file is encrypted with from a dictionary in
memory. Every call that changes it also changes the dictionary of `FileDictionaryFile` and the file
itself. `DataKeyImporter` adds files with keys of its own, which are removed again if the import is
rolled back.

The physical file, the random numbers and the time are what a call is given from outside. A call
gives its result and the state it leaves, also when it fails.
-/

namespace Tikv.Encryption

open FileDictionaryFile AppendFile

structure DataKey where
  key : Bytes
  method : EncryptionMethod
  creationTime : ℕ

/-- The dictionaries, with the file the file dictionary is kept in. -/
structure Dicts where
  fileDict : FileDictionary
  fileDictFile : FileDictionaryFile
  disk : AppendFile UInt8
  keyDict : AssocMap.Map ℕ DataKey
  currentKeyId : ℕ

/-- `GENERATE_DATA_KEY_LIMIT` -/
def generateDataKeyLimit : ℕ := 10

namespace Dicts

variable (fmt : Format)

def new (enableLog : Bool) (fileDictionaryRewriteThreshold : ℕ) : Dicts :=
  let (f, effects) := FileDictionaryFile.new fmt enableLog fileDictionaryRewriteThreshold
  { fileDict := .empty
    fileDictFile := f
    disk := effects.foldl apply ⟨[], []⟩
    keyDict := ∅
    currentKeyId := 0 }

/-- `open`, where the key dictionary was found too. -/
def openDicts (file : Bytes) (keyDict : AssocMap.Map ℕ DataKey) (currentKeyId : ℕ)
    (enableLog : Bool) (fileDictionaryRewriteThreshold : ℕ) : Except Error Dicts := do
  let (f, fileDict, effects) ←
    openFile fmt file enableLog fileDictionaryRewriteThreshold false
  return {
    fileDict := fileDict
    fileDictFile := f
    disk := effects.foldl apply ⟨file, []⟩
    keyDict := keyDict
    currentKeyId := currentKeyId }

variable (d : Dicts) (fname : String)

def getFile : Option FileInfo := d.fileDict.lookup fname

/-- A call of `FileDictionaryFile` that changes the dictionary is made. -/
def onFile (call : Except Error (FileDictionaryFile × List FileEffect)) : Except Error Dicts :=
  match call with
  | .error e => .error e
  | .ok (f, effects) =>
    if Fits fmt f.fileDict then
      .ok { d with fileDictFile := f, disk := effects.foldl apply d.disk }
    else .error .outOfMemory

/-- The last statements of a call: a record is written, and the call returns. -/
def finish {α : Type} (d : Dicts) (written : Except Error Dicts) (a : α) : Except Error α × Dicts :=
  match written with
  | .ok d' => (.ok a, d')
  | .error e => (.error e, d)

/-- The entry of a new file. -/
def newInfo (method : EncryptionMethod) (iv : Bytes) : FileInfo where
  iv := if method ≠ .plaintext then iv else []
  keyId := d.currentKeyId
  method := method

/-- `iv` is what `Iv::new_ctr` draws. -/
def newFile (method : EncryptionMethod) (iv : Bytes) (sync : Bool) :
    Except Error FileInfo × Dicts :=
  let file := d.newInfo method iv
  let d := { d with fileDict := d.fileDict.insert fname file }
  d.finish (d.onFile fmt (d.fileDictFile.insert fmt fname file sync)) file

def deleteFile (sync : Bool) : Except Error Unit × Dicts :=
  match d.fileDict.lookup fname with
  | none => (.ok (), d)
  | some _ =>
    let d := { d with fileDict := d.fileDict.erase fname }
    d.finish (d.onFile fmt (d.fileDictFile.remove fmt fname sync)) ()

/-- `physical` says whether the file system has the file. -/
def checkStaleFileExist (physical : Bool) : Except Error Unit × Dicts :=
  match d.fileDict.lookup fname with
  | none => (.ok (), d)
  | some _ =>
    if physical then (.error (.alreadyExists fname), d)
    else
      match d.onFile fmt (d.fileDictFile.remove fmt fname true) with
      | .error e => (.error e, d)
      | .ok d => (.ok (), { d with fileDict := d.fileDict.erase fname })

def linkFile (srcFname dstFname : String) (sync : Bool) (physical : Bool) :
    Except Error (Option Unit) × Dicts :=
  match d.fileDict.lookup srcFname with
  | none => (.ok none, d)
  | some file =>
    match d.checkStaleFileExist fmt dstFname physical with
    | (.error e, d) => (.error e, d)
    | (.ok (), d) =>
      let d := { d with fileDict := d.fileDict.insert dstFname file }
      d.finish (d.onFile fmt (d.fileDictFile.insert fmt dstFname file sync)) (some ())

/-- Whether the key was new. -/
def rotateKey (keyId : ℕ) (key : DataKey) : Bool × Dicts :=
  if (d.keyDict.lookup keyId).isSome then (false, d)
  else (true, { d with keyDict := d.keyDict.insert keyId key, currentKeyId := keyId })

end Dicts

open Dicts

/-! ### Imported keys -/

structure DataKeyImporter where
  startTime : ℕ
  fileAdditions : List String
  keyAdditions : List ℕ
  committed : Bool

namespace DataKeyImporter

variable (fmt : Format)

/-- `EXPECTED_TIME_WINDOW_SECS` -/
def expectedTimeWindowSecs : ℕ := 120

def new (startTime : ℕ) : DataKeyImporter := ⟨startTime, [], [], false⟩

/-- The id of a key that the dictionary has, if it is old enough not to be rolled back. -/
def oldKeyId (keyDict : AssocMap.Map ℕ DataKey) (newKey : DataKey) : Option ℕ :=
  match keyDict.entries.find? fun e => e.2.key = newKey.key with
  | some ⟨id, dataKey⟩ =>
    if expectedTimeWindowSecs < newKey.creationTime - dataKey.creationTime then some id else none
  | none => none

variable (imp : DataKeyImporter) (d : Dicts)

/-- The id of the key of an imported file; `ids` are what `rand_u64` draws. -/
def importKey (newKey : DataKey) (ids : List ℕ) : Except Error (ℕ × DataKeyImporter × Dicts) :=
  match oldKeyId d.keyDict newKey with
  | some id => .ok (id, imp, d)
  | none =>
    match (ids.take generateDataKeyLimit).find? fun id => (d.keyDict.lookup id).isNone with
    | none => .error (.keyIdCollides generateDataKeyLimit)
    | some id =>
      .ok (id, { imp with keyAdditions := imp.keyAdditions ++ [id] },
        { d with keyDict := d.keyDict.insert id newKey })

/-- An entry that the dictionary has is left as it is. -/
def addEntry (fname : String) (file : FileInfo) : Dicts :=
  match d.fileDict.lookup fname with
  | none => { d with fileDict := d.fileDict.insert fname file }
  | some _ => d

/-- The second part of `add`, once the key has an id. -/
def addFile (fname : String) (file : FileInfo)
    (physical : Bool) : Except Error Unit × DataKeyImporter × Dicts :=
  if (d.fileDict.lookup fname).isSome && physical then
    (.error (.fileNameCollides fname), imp, d)
  else
    let d := addEntry d fname file
    match d.onFile fmt (d.fileDictFile.insert fmt fname file false) with
    | .error e => (.error e, imp, d)
    | .ok d => (.ok (), { imp with fileAdditions := imp.fileAdditions ++ [fname] }, d)

def add (fname : String) (iv : Bytes) (newKey : DataKey)
    (ids : List ℕ) (physical : Bool) : Except Error Unit × DataKeyImporter × Dicts :=
  match imp.importKey d { newKey with creationTime := imp.startTime } ids with
  | .error e => (.error e, imp, d)
  | .ok (keyId, imp, d) => addFile fmt imp d fname ⟨iv, keyId, newKey.method⟩ physical

/-- The importer is used up by the call. -/
def commit : Except Error Unit × DataKeyImporter × Dicts :=
  if imp.fileAdditions.isEmpty then (.ok (), { imp with committed := true }, d)
  else
    match d.fileDictFile.sync with
    | .error e => (.error e, imp, d)
    | .ok effects =>
      (.ok (), { imp with committed := true },
        { d with disk := effects.foldl apply d.disk })

/-- The loop of `rollback`. Only the last removal is synced. -/
def deleteFiles (d : Dicts) : List String → Except Error Unit × Dicts
  | [] => (.ok (), d)
  | f :: rest =>
    match d.deleteFile fmt f rest.isEmpty with
    | (.error e, d) => (.error e, d)
    | (.ok (), d) => deleteFiles d rest

/-- `elapsed` is the time since the start, if the clock did not go back. -/
def rollback (elapsed : Option ℕ) : Except Error Unit × DataKeyImporter × Dicts :=
  if imp.committed then (.error .committed, imp, d)
  else
    match deleteFiles fmt d imp.fileAdditions with
    | (.error e, d) => (.error e, { imp with fileAdditions := [] }, d)
    | (.ok (), d) =>
      let imp := { imp with fileAdditions := [] }
      if !imp.keyAdditions.isEmpty && elapsed.any (· < expectedTimeWindowSecs - 1) then
        (.ok (), { imp with keyAdditions := [] },
          { d with keyDict := imp.keyAdditions.foldl (fun keys id => keys.erase id) d.keyDict })
      else (.ok (), imp, d)

end DataKeyImporter

open DataKeyImporter

/-! ### Calls on the manager -/

/-- The manager with the importers that use it. -/
structure ManagerState where
  dicts : Dicts
  importers : ℕ → DataKeyImporter

inductive DictsOp
  | newFile (fname : String) (method : EncryptionMethod) (iv : Bytes) (sync : Bool)
  | deleteFile (fname : String) (sync : Bool)
  | linkFile (srcFname dstFname : String) (sync physical : Bool)
  | rotateKey (keyId : ℕ) (key : DataKey)
  | newImporter (id startTime : ℕ)
  | add (id : ℕ) (fname : String) (iv : Bytes) (newKey : DataKey) (ids : List ℕ) (physical : Bool)
  | commit (id : ℕ)
  | rollback (id : ℕ) (elapsed : Option ℕ)

namespace ManagerState

/-- A call of `Dicts`. -/
def onDicts {α : Type} (m : ManagerState) (r : Except Error α × Dicts) :
    Except Error Unit × ManagerState :=
  (r.1.map fun _ => (), { m with dicts := r.2 })

/-- A call of an importer. -/
def onImporter (m : ManagerState) (id : ℕ) (r : Except Error Unit × DataKeyImporter × Dicts) :
    Except Error Unit × ManagerState :=
  (r.1, ⟨r.2.2, Function.update m.importers id r.2.1⟩)

def run (fmt : Format) (m : ManagerState) : DictsOp → Except Error Unit × ManagerState
  | .newFile fname method iv sync => m.onDicts (m.dicts.newFile fmt fname method iv sync)
  | .deleteFile fname sync => m.onDicts (m.dicts.deleteFile fmt fname sync)
  | .linkFile srcFname dstFname sync physical =>
    m.onDicts (m.dicts.linkFile fmt srcFname dstFname sync physical)
  | .rotateKey keyId key => (.ok (), { m with dicts := (m.dicts.rotateKey keyId key).2 })
  | .newImporter id startTime =>
    (.ok (), { m with importers := Function.update m.importers id (.new startTime) })
  | .add id fname iv newKey ids physical =>
    m.onImporter id ((m.importers id).add fmt m.dicts fname iv newKey ids physical)
  | .commit id => m.onImporter id ((m.importers id).commit m.dicts)
  | .rollback id elapsed => m.onImporter id ((m.importers id).rollback fmt m.dicts elapsed)

/-- The name and the info of every record that a call writes have lengths that fit into two
bytes. A call for a file that exists, or for one that the dictionary does not have, writes none. -/
def Short (fmt : Format) (m : ManagerState) : DictsOp → Prop
  | .newFile fname method iv _ => Update.Short fmt (fname, .insert (m.dicts.newInfo method iv))
  | .deleteFile fname _ =>
    (m.dicts.getFile fname).isSome = true → Update.Short fmt (fname, .remove)
  | .linkFile srcFname dstFname _ physical => ∀ file, m.dicts.getFile srcFname = some file →
    ((m.dicts.getFile dstFname).isSome && physical) = false →
    ((m.dicts.getFile dstFname).isSome = true → Update.Short fmt (dstFname, .remove)) ∧
      Update.Short fmt (dstFname, .insert file)
  | .rotateKey _ _ | .newImporter _ _ | .commit _ => True
  | .add id fname iv newKey ids physical => ∀ keyId imp d,
    (m.importers id).importKey m.dicts { newKey with creationTime := (m.importers id).startTime }
      ids = .ok (keyId, imp, d) → ((m.dicts.getFile fname).isSome && physical) = false →
    Update.Short fmt (fname, .insert ⟨iv, keyId, newKey.method⟩)
  | .rollback id _ => (m.importers id).committed = false →
    ∀ fname ∈ (m.importers id).fileAdditions, (m.dicts.getFile fname).isSome = true →
      Update.Short fmt (fname, .remove)

/-- No file is imported under a name that the dictionary has and the file system has not. -/
def NotStale (m : ManagerState) : DictsOp → Prop
  | .add _ fname _ _ _ physical => (m.dicts.getFile fname).isSome = true → physical = true
  | _ => True

end ManagerState

/-! ### Agreement -/

section Agreement

variable {fmt : Format} {f f' : FileDictionaryFile} {disk : AppendFile UInt8} {u : Update}
  {d : Dicts}

/-- The file is what its object says. -/
structure FileInv (fmt : Format) (f : FileDictionaryFile) (disk : AppendFile UInt8) : Prop where
  log : f.enableLog = true → f.appendFile = true ∧
    ∃ s pre log k, Session.dict s = f.fileDict ∧ Kept fmt s disk pre log k
  plain : f.enableLog = false → disk = ⟨rewriteBytes fmt false f.fileDict, []⟩ ∧ Fits fmt f.fileDict

theorem FileInv.recovery_content (h : FileInv fmt f disk) :
    recovery fmt disk.content = .ok f.fileDict := by
  cases hlog : f.enableLog with
  | true =>
    obtain ⟨-, s, pre, log, k, hdict, hkept⟩ := h.log hlog
    rw [← hdict]
    exact hkept.recovery_content
  | false =>
    obtain ⟨rfl, hfits⟩ := h.plain hlog
    rw [content, List.append_nil]
    exact recovery_rewriteBytes hfits false

theorem rewrite_keeps (fmt : Format) (f : FileDictionaryFile) :
    (f.rewrite fmt).1.enableLog = f.enableLog ∧ (f.rewrite fmt).1.fileDict = f.fileDict := by
  unfold rewrite
  split <;> exact ⟨rfl, rfl⟩

theorem update_keeps {removed : ℕ} {sync : Bool} {effects : List FileEffect}
    (h : f.update fmt u removed sync = .ok (f', effects)) :
    f'.enableLog = f.enableLog ∧ f'.fileDict = u.apply f.fileDict := by
  unfold update at h
  split at h
  · split at h
    · obtain ⟨rfl, -⟩ := ok_mk_inj h
      unfold checkCompact
      split
      · exact rewrite_keeps fmt _
      · exact ⟨rfl, rfl⟩
    · cases h
  · obtain ⟨rfl, -⟩ := ok_mk_inj h
    exact rewrite_keeps fmt _

/-- A file that was just installed. -/
theorem FileInv.rewrite (fmt : Format) (f : FileDictionaryFile) (disk : AppendFile UInt8)
    (hfits : Fits fmt f.fileDict) :
    (f.rewrite fmt).1.fileDict = f.fileDict ∧
      FileInv fmt (f.rewrite fmt).1 ((f.rewrite fmt).2.foldl apply disk) := by
  cases hlog : f.enableLog with
  | true =>
    obtain ⟨hlogging, hdict, heffects⟩ := rewrite_spec fmt hlog
    refine ⟨hdict, fun _ => ⟨hlogging.appendFile, ⟨f.fileDict, [], 0⟩, [], [], 0, hdict.symm, ?_⟩,
      fun hno => absurd hlogging.enableLog (Bool.eq_false_iff.mp hno)⟩
    rw [heffects]
    exact Kept.install (s := ⟨f.fileDict, [], 0⟩) disk hfits (Nat.zero_le _)
  | false =>
    rw [FileDictionaryFile.rewrite, if_neg (by rw [hlog]; decide)]
    refine ⟨rfl, fun hyes => absurd hyes (Bool.eq_false_iff.mp hlog), fun _ => ⟨?_, hfits⟩⟩
    rw [hlog]
    rfl

/-- An update that is written keeps the file what its object says. -/
theorem FileInv.update (h : FileInv fmt f disk)
    (hu : f.enableLog = true → u.Short fmt ∧ u.Applicable f.fileDict)
    (hfits : Fits fmt (u.apply f.fileDict)) (removed : ℕ) (sync : Bool) :
    ∃ f' effects, f.update fmt u removed sync = .ok (f', effects) ∧
      f'.fileDict = u.apply f.fileDict ∧
      FileInv fmt f' (effects.foldl apply disk) := by
  cases hlog : f.enableLog with
  | true =>
    obtain ⟨happend, s, pre, log, k, hdict, hkept⟩ := h.log hlog
    obtain ⟨hshort, happlicable⟩ := hu hlog
    obtain ⟨⟨f', effects⟩, hok⟩ : ∃ r, f.update fmt u removed sync = .ok r := by
      rw [FileDictionaryFile.update, if_pos hlog, if_pos happend]
      exact ⟨_, rfl⟩
    obtain ⟨hlogging, hdict', rest, rfl, hrest⟩ := update_spec ⟨hlog, happend⟩ hok
    rw [← hdict] at happlicable hdict' hfits
    rw [hdict', ← s.dict_concat u s.durable] at hrest
    rw [← s.dict_concat u s.durable] at hfits
    obtain ⟨pre', log', k', hkept'⟩ := (hkept.append hshort happlicable).persist hfits hrest
    refine ⟨f', _, hok, by rw [hdict', hdict], fun _ => ⟨hlogging.appendFile, _, pre',
      log', k', ?_, hkept'⟩, fun hno => absurd hlogging.enableLog (Bool.eq_false_iff.mp hno)⟩
    rw [hdict']
    exact s.dict_concat u _
  | false =>
    rw [FileDictionaryFile.update, if_neg (by rw [hlog]; decide)]
    obtain ⟨hdict', hinv⟩ := FileInv.rewrite fmt
      { f with fileDict := u.apply f.fileDict } disk hfits
    exact ⟨_, _, rfl, hdict', hinv⟩

/-- A sync makes what was written durable. -/
theorem FileInv.sync (h : FileInv fmt f disk) :
    ∃ effects, f.sync = .ok effects ∧ FileInv fmt f (effects.foldl apply disk) := by
  cases hlog : f.enableLog with
  | true =>
    obtain ⟨happend, s, pre, log, k, hdict, hkept⟩ := h.log hlog
    refine ⟨[.syncAll], by rw [FileDictionaryFile.sync, if_pos hlog, if_pos happend], fun _ => ?_,
      fun hno => nomatch hlog.symm.trans hno⟩
    refine ⟨happend, s, pre, log, log.length, hdict, hkept.updates, hkept.holds.syncAll, hkept.fits,
      hkept.short, hkept.replays, hkept.durable.trans ?_⟩
    exact Nat.add_le_add_left hkept.holds.le _
  | false =>
    refine ⟨[], ?_, h⟩
    rw [FileDictionaryFile.sync, if_neg (by rw [hlog]; decide)]

/-- The dictionary in memory, that of the file's object and the file agree. -/
structure Dicts.Agrees (fmt : Format) (d : Dicts) : Prop where
  fileDict : d.fileDict = d.fileDictFile.fileDict
  file : FileInv fmt d.fileDictFile d.disk

namespace Dicts

/-- A record is written, or the process ends. -/
theorem onFile_update (h : FileInv fmt d.fileDictFile d.disk)
    (hu : d.fileDictFile.enableLog = true → u.Short fmt ∧ u.Applicable d.fileDictFile.fileDict)
    (removed : ℕ) (sync : Bool) :
    d.onFile fmt (d.fileDictFile.update fmt u removed sync) = .error .outOfMemory ∨
      ∃ d', d.onFile fmt (d.fileDictFile.update fmt u removed sync) = .ok d' ∧
        d'.fileDict = d.fileDict ∧ d'.fileDictFile.fileDict = u.apply d.fileDictFile.fileDict ∧
        d'.fileDictFile.enableLog = d.fileDictFile.enableLog ∧
        FileInv fmt d'.fileDictFile d'.disk := by
  obtain ⟨⟨f', effects⟩, hok⟩ : ∃ r, d.fileDictFile.update fmt u removed sync = .ok r := by
    unfold update
    split
    · next hlog =>
      rw [if_pos (h.log hlog).1]
      exact ⟨_, rfl⟩
    · exact ⟨_, rfl⟩
  obtain ⟨hlog, hdict⟩ := update_keeps hok
  rw [hok, onFile]
  by_cases hfits : Fits fmt f'.fileDict
  · rw [if_pos hfits]
    rw [hdict] at hfits
    obtain ⟨f'', effects'', hok', -, hinv⟩ := h.update hu hfits removed sync
    obtain ⟨rfl, rfl⟩ := Prod.mk.inj (ok_unique hok hok')
    exact .inr ⟨_, rfl, rfl, hdict, hlog, hinv⟩
  · exact .inl (if_neg hfits)

/-- A call that returns leaves the dictionaries in agreement, and the file as it is configured. -/
def Leaves (fmt : Format) (d : Dicts) {α : Type} (r : Except Error α × Dicts) : Prop :=
  r.1 ≠ .error .outOfMemory →
    r.2.Agrees fmt ∧ r.2.fileDictFile.enableLog = d.fileDictFile.enableLog

section

variable (h : d.Agrees fmt)
include h

/-- The dictionary in memory is changed, and then the record is written. -/
theorem Agrees.finish {α : Type} {a : α} {removed : ℕ} {sync : Bool}
    (hu : d.fileDictFile.enableLog = true → u.Short fmt ∧ u.Applicable d.fileDict) :
    Leaves fmt d (finish { d with fileDict := u.apply d.fileDict }
      (onFile fmt { d with fileDict := u.apply d.fileDict }
        (d.fileDictFile.update fmt u removed sync)) a) := by
  intro hreturns
  rw [h.fileDict] at hu
  rcases onFile_update (d := { d with fileDict := u.apply d.fileDict }) h.file hu removed sync with
    hend | ⟨d', hok, hdict, hfile, hlog, hinv⟩
  · rw [hend] at hreturns
    exact absurd rfl hreturns
  · have hmem := congrArg (Update.apply · u) h.fileDict
    rw [hok]
    exact ⟨⟨hdict.trans (hmem.trans hfile.symm), hinv⟩, hlog⟩

theorem Agrees.newFile {fname : String} {method : EncryptionMethod} {iv : Bytes} {sync : Bool}
    (hshort : d.fileDictFile.enableLog = true →
      Update.Short fmt (fname, .insert (d.newInfo method iv))) :
    Leaves fmt d (d.newFile fmt fname method iv sync) :=
  h.finish (u := (fname, .insert (d.newInfo method iv))) fun hlog => ⟨hshort hlog, trivial⟩

theorem Agrees.deleteFile (fname : String) (sync : Bool)
    (hshort : d.fileDictFile.enableLog = true → (d.getFile fname).isSome = true →
      Update.Short fmt (fname, .remove)) :
    Leaves fmt d (d.deleteFile fmt fname sync) := by
  unfold Dicts.deleteFile
  cases hlookup : d.fileDict.lookup fname with
  | none => exact fun _ => ⟨h, rfl⟩
  | some info =>
    have hsome := Option.isSome_of_eq_some hlookup
    exact h.finish (u := (fname, .remove)) fun hlog => ⟨hshort hlog hsome, hsome⟩

omit h in
/-- A deletion adds no name to the dictionary in memory. -/
theorem isSome_getFile_deleteFile {fname other : String} {sync : Bool}
    (hsome : ((d.deleteFile fmt fname sync).2.getFile other).isSome = true) :
    (d.getFile other).isSome = true := by
  unfold Dicts.deleteFile at hsome
  split at hsome
  · exact hsome
  · have hdict : (Dicts.finish { d with fileDict := d.fileDict.erase fname }
        (onFile fmt { d with fileDict := d.fileDict.erase fname }
          (d.fileDictFile.remove fmt fname sync)) ()).2.fileDict = d.fileDict.erase fname := by
      unfold Dicts.finish onFile
      split <;> rename_i hwritten
      · split at hwritten
        · cases hwritten
        · split at hwritten <;> cases hwritten
          rfl
      · rfl
    rw [getFile, hdict, OrderedMap.lookup_erase] at hsome
    split at hsome
    · cases hsome
    · exact hsome

/-- A stale entry is gone from everywhere, or the call fails and nothing has changed. -/
theorem Agrees.checkStaleFileExist (fname : String) (physical : Bool)
    (hshort : d.fileDictFile.enableLog = true → (d.getFile fname).isSome = true →
      Update.Short fmt (fname, .remove)) :
    Leaves fmt d (d.checkStaleFileExist fmt fname physical) := by
  unfold Dicts.checkStaleFileExist
  cases hlookup : d.fileDict.lookup fname with
  | none => exact fun _ => ⟨h, rfl⟩
  | some info =>
    cases physical with
    | true => exact fun _ => ⟨h, rfl⟩
    | false =>
      intro hreturns
      rw [remove] at hreturns ⊢
      simp only [Bool.false_eq_true, if_false] at hreturns ⊢
      have hsome := Option.isSome_of_eq_some hlookup
      have happlicable := h.fileDict ▸ hsome
      rcases onFile_update h.file (fun hlog => ⟨hshort hlog hsome, happlicable⟩)
        (d.fileDictFile.removed + 1) true with hend | ⟨d', hok, hdict, hfile, hlog, hinv⟩
      · rw [hend] at hreturns
        exact absurd rfl hreturns
      · rw [hok]
        refine ⟨⟨?_, hinv⟩, hlog⟩
        rw [hfile, ← h.fileDict, ← hdict]
        rfl

/-- `link_file` writes the same file to the three dictionaries. -/
theorem Agrees.linkFile {srcFname dstFname : String} {sync physical : Bool}
    (hshort : d.fileDictFile.enableLog = true → ∀ file, d.getFile srcFname = some file →
      ((d.getFile dstFname).isSome && physical) = false →
      ((d.getFile dstFname).isSome = true → Update.Short fmt (dstFname, .remove)) ∧
        Update.Short fmt (dstFname, .insert file)) :
    Leaves fmt d (d.linkFile fmt srcFname dstFname sync physical) := by
  unfold Dicts.linkFile
  cases hlookup : d.fileDict.lookup srcFname with
  | none => exact fun _ => ⟨h, rfl⟩
  | some file =>
    rcases Bool.eq_false_or_eq_true ((d.getFile dstFname).isSome && physical) with hexists | hwrites
    · -- The file exists, and the call is refused.
      obtain ⟨hsome, rfl⟩ := Bool.and_eq_true_iff.mp hexists
      obtain ⟨info, hinfo⟩ := Option.isSome_iff_exists.mp hsome
      have hrefused : d.checkStaleFileExist fmt dstFname true =
          (.error (.alreadyExists dstFname), d) := by
        rw [Dicts.checkStaleFileExist, show d.fileDict.lookup dstFname = some info from hinfo]
        rfl
      rw [hrefused]
      exact fun _ => ⟨h, rfl⟩
    have hstale := h.checkStaleFileExist dstFname physical fun hlog =>
      (hshort hlog file hlookup hwrites).1
    generalize d.checkStaleFileExist fmt dstFname physical = checked at hstale ⊢
    obtain ⟨_ | ⟨⟨⟩⟩, d'⟩ := checked
    · exact fun hreturns => hstale fun hend => hreturns (by rw [Except.error.inj hend])
    · obtain ⟨hagrees, hlog⟩ := hstale nofun
      refine fun hreturns => (hagrees.finish (u := (dstFname, .insert file)) (fun hlog' => ?_)
        hreturns).imp_right (·.trans hlog)
      exact ⟨(hshort (hlog.symm.trans hlog') file hlookup hwrites).2, trivial⟩

end

end Dicts

namespace DataKeyImporter

variable {imp : DataKeyImporter}

/-- Choosing a key changes the key dictionary only. -/
theorem importKey_agrees {newKey : DataKey} {ids : List ℕ} {keyId : ℕ} {imp' : DataKeyImporter}
    {d' : Dicts} (h : imp.importKey d newKey ids = .ok (keyId, imp', d')) :
    d'.fileDict = d.fileDict ∧ d'.fileDictFile = d.fileDictFile ∧ d'.disk = d.disk := by
  unfold importKey at h
  split at h
  · cases h
    exact ⟨rfl, rfl, rfl⟩
  · split at h
    · cases h
    · cases h
      exact ⟨rfl, rfl, rfl⟩

/-- An entry that is not stale is written to the three dictionaries. -/
theorem addFile_agrees (h : d.Agrees fmt) {fname : String} {file : FileInfo} {physical : Bool}
    (hshort : d.fileDictFile.enableLog = true →
      ((d.getFile fname).isSome && physical) = false → Update.Short fmt (fname, .insert file))
    (hstale : (d.getFile fname).isSome = true → physical = true)
    (hreturns : (imp.addFile fmt d fname file physical).1 ≠ .error .outOfMemory) :
    (imp.addFile fmt d fname file physical).2.2.Agrees fmt := by
  unfold addFile at hreturns ⊢
  cases hlookup : d.fileDict.lookup fname with
  | some info =>
    have hphysical : physical = true := hstale (by rw [getFile, hlookup]; rfl)
    rw [hphysical]
    exact h
  | none =>
    have hentry : addEntry d fname file = { d with fileDict := d.fileDict.insert fname file } := by
      rw [addEntry, hlookup]
    rw [hlookup, hentry] at hreturns
    rw [hentry]
    simp only [Option.isSome_none, Bool.false_and, Bool.false_eq_true, if_false,
      FileDictionaryFile.insert] at hreturns ⊢
    rcases onFile_update (u := (fname, .insert file))
      (d := { d with fileDict := d.fileDict.insert fname file }) h.file
      (fun hlog => ⟨hshort hlog (by rw [getFile, hlookup]; rfl), trivial⟩)
      d.fileDictFile.removed false with
      hend | ⟨d', hok, hdict, hfile, -, hinv⟩
    · rw [hend] at hreturns
      exact absurd rfl hreturns
    · rw [hok]
      refine ⟨?_, hinv⟩
      rw [hdict, hfile, h.fileDict]
      rfl

/-- `add` imports the key and writes the entry. -/
theorem add_agrees (h : d.Agrees fmt) {fname : String} {iv : Bytes} {newKey : DataKey}
    {ids : List ℕ} {physical : Bool}
    (hshort : d.fileDictFile.enableLog = true → ∀ keyId imp' d',
      imp.importKey d { newKey with creationTime := imp.startTime } ids = .ok (keyId, imp', d') →
      ((d.getFile fname).isSome && physical) = false →
      Update.Short fmt (fname, .insert ⟨iv, keyId, newKey.method⟩))
    (hstale : (d.getFile fname).isSome = true → physical = true)
    (hreturns : (imp.add fmt d fname iv newKey ids physical).1 ≠ .error .outOfMemory) :
    (imp.add fmt d fname iv newKey ids physical).2.2.Agrees fmt := by
  unfold add at hreturns ⊢
  cases hkey : imp.importKey d { newKey with creationTime := imp.startTime } ids with
  | error e => exact h
  | ok r =>
    obtain ⟨keyId, imp', d'⟩ := r
    rw [hkey] at hreturns
    obtain ⟨hmem, hobject, hdisk⟩ := importKey_agrees hkey
    refine addFile_agrees ⟨?_, ?_⟩ ?_ ?_ hreturns
    · rw [hmem, hobject, h.fileDict]
    · rw [hobject, hdisk]
      exact h.file
    · rw [hobject, getFile, hmem]
      exact fun hlog => hshort hlog keyId imp' d' hkey
    · rw [getFile, hmem]
      exact hstale

theorem commit_agrees (h : d.Agrees fmt) : (imp.commit d).2.2.Agrees fmt := by
  unfold commit
  split
  · exact h
  · obtain ⟨effects, hsync, hinv⟩ := h.file.sync
    rw [hsync]
    exact ⟨h.fileDict, hinv⟩

/-- The loop of `rollback` over the added files. -/
theorem deleteFiles_agrees {fnames : List String} (h : d.Agrees fmt)
    (hshort : d.fileDictFile.enableLog = true →
      ∀ fname ∈ fnames, (d.getFile fname).isSome = true → Update.Short fmt (fname, .remove))
    (hreturns : (deleteFiles fmt d fnames).1 ≠ .error .outOfMemory) :
    (deleteFiles fmt d fnames).2.Agrees fmt := by
  induction fnames generalizing d with
  | nil => exact h
  | cons fname rest ih =>
    unfold deleteFiles at hreturns ⊢
    have hone := h.deleteFile fname rest.isEmpty fun hlog =>
      hshort hlog fname List.mem_cons_self
    have hnames : ∀ other, ((d.deleteFile fmt fname rest.isEmpty).2.getFile other).isSome = true →
        (d.getFile other).isSome = true := fun _ => isSome_getFile_deleteFile
    generalize d.deleteFile fmt fname rest.isEmpty = deleted at hone hnames hreturns ⊢
    obtain ⟨_ | ⟨⟨⟩⟩, d'⟩ := deleted
    · exact (hone hreturns).1
    · obtain ⟨hagrees, hlog⟩ := hone nofun
      exact ih hagrees (fun hlog' fname hmem hsome =>
        hshort (hlog.symm.trans hlog') fname (List.mem_cons_of_mem _ hmem) (hnames _ hsome))
        hreturns

/-- `rollback` removes the added files from the three dictionaries. -/
theorem rollback_agrees (h : d.Agrees fmt) {elapsed : Option ℕ}
    (hshort : d.fileDictFile.enableLog = true → imp.committed = false →
      ∀ fname ∈ imp.fileAdditions, (d.getFile fname).isSome = true →
        Update.Short fmt (fname, .remove))
    (hreturns : (imp.rollback fmt d elapsed).1 ≠ .error .outOfMemory) :
    (imp.rollback fmt d elapsed).2.2.Agrees fmt := by
  unfold rollback at hreturns ⊢
  by_cases hcommitted : imp.committed = true
  · rw [if_pos hcommitted]
    exact h
  · rw [if_neg hcommitted] at hreturns ⊢
    have hall := deleteFiles_agrees h fun hlog => hshort hlog (Bool.eq_false_iff.mpr hcommitted)
    generalize deleteFiles fmt d imp.fileAdditions = deleted at hall hreturns ⊢
    obtain ⟨_ | ⟨⟨⟩⟩, d'⟩ := deleted
    · exact hall fun hend => hreturns (by rw [Except.error.inj hend])
    · have hagrees := hall nofun
      dsimp only
      split
      · exact ⟨hagrees.fileDict, hagrees.file⟩
      · exact hagrees

end DataKeyImporter

/-! ### Runs -/

/-- A manager with new dictionaries, or with dictionaries that were read. -/
inductive ManagerStart (fmt : Format) : ManagerState → Prop
  | new (enableLog : Bool) (fileDictionaryRewriteThreshold : ℕ) : Fits fmt .empty →
    ManagerStart fmt ⟨.new fmt enableLog fileDictionaryRewriteThreshold, fun _ => .new 0⟩
  | opened {file keyDict currentKeyId enableLog fileDictionaryRewriteThreshold} {d : Dicts} :
    openDicts fmt file keyDict currentKeyId enableLog fileDictionaryRewriteThreshold =
      .ok d → Fits fmt d.fileDict → ManagerStart fmt ⟨d, fun _ => .new 0⟩

/-- A call that returns, with a result or with an error. -/
def ManagerStep (fmt : Format) (m : ManagerState) (op : DictsOp) (m' : ManagerState) : Prop :=
  (m.run fmt op).2 = m' ∧ (m.run fmt op).1 ≠ .error .outOfMemory

/-- A manager starts with the dictionary that it has read. -/
theorem ManagerStart.agrees {m : ManagerState} (h : ManagerStart fmt m) : m.dicts.Agrees fmt := by
  cases h with
  | new enableLog threshold hfits =>
    obtain ⟨hdict, hinv⟩ := FileInv.rewrite fmt ⟨false, .empty, enableLog, threshold, 0, 0⟩ ⟨[], []⟩
      hfits
    exact ⟨hdict.symm, hinv⟩
  | opened hopen hfits =>
    obtain ⟨⟨f, fileDict, effects⟩, hfile, hd⟩ := bind_eq_ok.mp hopen
    obtain rfl := Except.ok.inj hd
    obtain ⟨fileDict', -, hfile⟩ := bind_eq_ok.mp hfile
    obtain ⟨hf, hrest⟩ := ok_mk_inj hfile
    obtain ⟨rfl, heffects⟩ := Prod.mk.inj hrest
    subst hf heffects
    obtain ⟨hdict, hinv⟩ := FileInv.rewrite fmt ⟨false, fileDict', _, _, 0, 0⟩ ⟨_, []⟩ hfits
    exact ⟨hdict.symm, hinv⟩

/-- **Every call keeps the dictionaries equal.** -/
theorem ManagerStep.agrees {m m' : ManagerState} {op : DictsOp} (h : m.dicts.Agrees fmt)
    (hstep : ManagerStep fmt m op m')
    (hshort : m.dicts.fileDictFile.enableLog = true → m.Short fmt op) (hstale : m.NotStale op) :
    m'.dicts.Agrees fmt := by
  obtain ⟨rfl, hreturns⟩ := hstep
  have hmap : ∀ {α : Type} {r : Except Error α}, r.map (fun _ => ()) ≠ .error .outOfMemory →
      r ≠ .error .outOfMemory := by
    rintro α _ hne rfl
    exact hne rfl
  cases op with
  | newFile fname method iv sync => exact (h.newFile hshort (hmap hreturns)).1
  | deleteFile fname sync => exact (h.deleteFile fname sync hshort (hmap hreturns)).1
  | linkFile srcFname dstFname sync physical => exact (h.linkFile hshort (hmap hreturns)).1
  | rotateKey keyId key =>
    change (m.dicts.rotateKey keyId key).2.Agrees fmt
    unfold rotateKey
    split
    · exact h
    · exact ⟨h.fileDict, h.file⟩
  | newImporter id startTime => exact h
  | add id fname iv newKey ids physical =>
    exact add_agrees h hshort hstale hreturns
  | commit id => exact commit_agrees h
  | rollback id elapsed => exact rollback_agrees h hshort hreturns

end Agreement

/-- In every run whose calls write short records and import no file over a stale entry, the
dictionary in memory equals the one of the file's object and the one that is read from the file, so
that a restart gives every file the same key and initialization vector. -/
theorem dicts_agree {fmt : Format} {start m : ManagerState} {ops : List DictsOp}
    (hstart : ManagerStart fmt start)
    (hrun : Exec (fun m op m' => ManagerStep fmt m op m' ∧
      (m.dicts.fileDictFile.enableLog = true → m.Short fmt op) ∧ m.NotStale op) start ops m) :
    m.dicts.fileDict = m.dicts.fileDictFile.fileDict ∧
      ∀ keyDict currentKeyId enableLog fileDictionaryRewriteThreshold, ∃ d,
        openDicts fmt m.dicts.disk.content keyDict currentKeyId enableLog
          fileDictionaryRewriteThreshold = .ok d ∧
        d.fileDict = m.dicts.fileDict ∧ ∀ fname, d.getFile fname = m.dicts.getFile fname := by
  have hagrees : m.dicts.Agrees fmt := hrun.invariant
    (I := fun m => m.dicts.Agrees fmt) (fun _ _ _ h hstep => hstep.1.agrees h hstep.2.1 hstep.2.2)
    hstart.agrees
  refine ⟨hagrees.fileDict, fun keyDict currentKeyId enableLog threshold => ?_⟩
  obtain ⟨f, effects, hopen⟩ :=
    openFile_eq_ok hagrees.file.recovery_content enableLog threshold false
  rw [← hagrees.fileDict] at hopen
  rw [openDicts, hopen]
  exact ⟨_, rfl, rfl, fun fname => rfl⟩

section Stale

def importedKey : DataKey := ⟨[1], .aes128Ctr, 0⟩

/-- A file is created under the name `a` and imported under the name `b`. -/
def importOps : List DictsOp :=
  [.newFile "a" .plaintext [] true, .add 0 "b" [7] importedKey [3] false, .commit 0]

/-- A file is created, and imported under the same name; the file system does not have it. -/
def staleOps : List DictsOp :=
  [.newFile "a" .plaintext [] true, .add 0 "a" [7] importedKey [3] false, .commit 0]

def newManager : ManagerState := ⟨.new plainFormat true 0, fun _ => .new 0⟩

def stateAfter (ops : List DictsOp) : ManagerState :=
  ops.foldl (fun m op => (m.run plainFormat op).2) newManager

/-- After a restart the imported file has its key. -/
theorem dicts_agree_imported :
    (stateAfter importOps).dicts.getFile "b" = some ⟨[7], 3, .aes128Ctr⟩ ∧
      ∃ d, openDicts plainFormat (stateAfter importOps).dicts.disk.content ∅ 0 true 0 =
        .ok d ∧ d.getFile "b" = some ⟨[7], 3, .aes128Ctr⟩ := by
  have hfile : (stateAfter importOps).dicts.getFile "b" = some ⟨[7], 3, .aes128Ctr⟩ := by decide
  have hstart : ManagerStart plainFormat newManager := .new true 0 ⟨by decide, by decide⟩
  have hrun : Exec (fun m op m' => ManagerStep plainFormat m op m' ∧
      (m.dicts.fileDictFile.enableLog = true → m.Short plainFormat op) ∧ m.NotStale op)
      newManager importOps (stateAfter importOps) := by
    refine .cons ⟨⟨rfl, nofun⟩, fun _ => ⟨by decide, by decide⟩, trivial⟩
      (.cons ⟨⟨rfl, nofun⟩, fun _ keyId imp d hkey _ => ?_, nofun⟩
        (.cons ⟨⟨rfl, nofun⟩, fun _ => trivial, trivial⟩ (.nil _)))
    obtain rfl : 3 = keyId := (ok_mk_inj hkey).1
    exact ⟨by decide, by decide⟩
  obtain ⟨d, hopen, -, hget⟩ := (dicts_agree hstart hrun).2 ∅ 0 true 0
  exact ⟨hfile, d, hopen, (hget "b").trans hfile⟩

/-- The import is written to the file and not to the dictionary in memory: until the restart the
file is read with the key of the stale entry. -/
theorem dicts_differ :
    Exec (ManagerStep plainFormat) newManager staleOps (stateAfter staleOps) ∧
      (stateAfter staleOps).dicts.getFile "a" = some ⟨[], 0, .plaintext⟩ ∧
      (stateAfter staleOps).dicts.fileDictFile.fileDict.lookup "a" =
        some ⟨[7], 3, .aes128Ctr⟩ ∧
      ∃ d, openDicts plainFormat (stateAfter staleOps).dicts.disk.content ∅ 0 true 0 =
        .ok d ∧ d.getFile "a" = some ⟨[7], 3, .aes128Ctr⟩ := by
  refine ⟨.cons ⟨rfl, nofun⟩ (.cons ⟨rfl, nofun⟩ (.cons ⟨rfl, nofun⟩ (.nil _))), by decide,
    by decide, ?_⟩
  have hcontent : (stateAfter staleOps).dicts.disk.content = rewriteBytes plainFormat true .empty ++
      [("a", LogRecord.insert ⟨[], 0, .plaintext⟩),
        ("a", .insert ⟨[7], 3, .aes128Ctr⟩)].flatMap (convertRecordToBytes plainFormat) := by
    decide
  have hreplay : recovery plainFormat (stateAfter staleOps).dicts.disk.content = .ok
      ((OrderedMap.empty.insert "a" ⟨[], 0, .plaintext⟩).insert "a" ⟨[7], 3, .aes128Ctr⟩) := by
    rw [hcontent]
    refine (encodes plainFormat).replay_all ?_ rfl
    exact List.forall_mem_cons.mpr ⟨⟨by decide, by decide⟩,
      List.forall_mem_cons.mpr ⟨⟨by decide, by decide⟩, nofun⟩⟩
  obtain ⟨f, effects, hopen⟩ := openFile_eq_ok hreplay true 0 false
  rw [openDicts, hopen]
  exact ⟨_, rfl, (OrderedMap.lookup_insert _ _ _ _).trans (if_pos rfl)⟩

end Stale

end Tikv.Encryption
