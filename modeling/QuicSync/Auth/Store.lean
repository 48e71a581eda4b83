import QuicSync.Auth.Certificate
import QuicSync.Process.Tasks

/-!
# The identity store

Several processes may load or create the identity of one directory at the same time: nothing locks
it.  A call of `load_or_create` is a sequence of system calls here, each of which may fail, and the
calls of all processes interleave in any order.  Both files are created with `create_new`, and a
creation that cannot write the certificate removes the private key again.

A file keeps the number of the call that has created it.  A call writes through the descriptor it
has opened: when the file has been removed, nobody sees what is written.

* `Call.Holds`: what a call relies on; `Holds.frame`: the other calls leave it alone.
* `identity_agreement`: all calls that succeed return one certificate, and once a creation has
  succeeded every later call returns its identity, unless a system call fails.
-/

namespace QuicSync

/-! ### The directory -/

/-- What the system answers about the directory. -/
structure DirectoryAnswers where
  created : Option Posix.Errno
  /-- Whether it is a directory, and not a link to one. -/
  inspected : Except Posix.Errno Bool
  owner : Except Posix.Errno UInt32
  secured : Option Posix.Errno

def systemAnswer (action : String) : Option Posix.Errno → Except QuicSyncError Unit
  | none => .ok ()
  | some error => .error (identityError action error)

/-- Create the directory if need be, and check that it is one, and whose. -/
def prepareDirectory (euid : UInt32) (answers : DirectoryAnswers) : Except QuicSyncError Unit := do
  systemAnswer "create identity directory" answers.created
  let isDir ← answers.inspected.mapError (identityError "inspect identity directory")
  if !isDir then
    .error (configurationError "identity directory must not be a symbolic link")
  else
    let uid ← answers.owner.mapError (identityError "inspect identity directory")
    if uid ≠ euid then
      .error (configurationError "identity directory must be owned by the current user")
    else systemAnswer "secure identity directory" answers.secured

/-! ### The files -/

/-- A file of the store. -/
structure StoredFile where
  /-- The call that has created it, if one has. -/
  creator : Option ℕ
  regular : Bool
  /-- Whether it is found when links are followed. -/
  found : Bool
  content : Bytes
  mode : UInt32
  uid : UInt32
  deriving DecidableEq

structure Store where
  certificate : Option StoredFile
  privateKey : Option StoredFile
  deriving DecidableEq

/-- What one system call does to the store. -/
inductive Edit where
  | keep
  | createKey
  | appendKey (bytes : Bytes)
  | removeKey
  | createCertificate
  | appendCertificate (bytes : Bytes)

section

variable (euid : UInt32) (umask : ℕ → UInt32)

/-- The private key as call `p` creates it. -/
def StoredFile.newKey (p : ℕ) : StoredFile :=
  ⟨some p, true, true, [], 0o600 &&& ~~~umask p, euid⟩

/-- The certificate as call `p` creates it. -/
def StoredFile.newCertificate (p : ℕ) : StoredFile :=
  ⟨some p, true, true, [], 0o666 &&& ~~~umask p, euid⟩

/-- Call `p` writes to a file it has created. -/
def StoredFile.append (p : ℕ) (bytes : Bytes) (f : StoredFile) : StoredFile :=
  if f.creator = some p then { f with content := f.content ++ bytes } else f

/-- Call `p` edits the store. -/
def Store.edit (p : ℕ) (store : Store) : Edit → Store
  | .keep => store
  | .createKey => { store with privateKey := some (.newKey euid umask p) }
  | .appendKey bytes => { store with privateKey := store.privateKey.map (.append p bytes) }
  | .removeKey => { store with privateKey := none }
  | .createCertificate => { store with certificate := some (.newCertificate euid umask p) }
  | .appendCertificate bytes => { store with certificate := store.certificate.map (.append p bytes) }

end

/-! ### One call -/

/-- What a creation is to write. -/
structure Material where
  privateKey : Bytes
  certificate : Bytes

/-- Where a call is. -/
inductive Call where
  | preparing
  | looking
  | lookingForKey (certificate : Bool)
  | checkingCertificate
  | checkingKey
  | checkingPermissions
  | readingCertificate
  | readingKey (certificate : Bytes)
  | generating
  | creatingKey (material : Material)
  | writingKey (material : Material) (rest : Bytes)
  | creatingCertificate (material : Material)
  | writingCertificate (material : Material) (rest : Bytes)
  | removingKey (error : QuicSyncError)
  /-- It has returned, from a creation or not. -/
  | returned (creation : Bool) (result : Except QuicSyncError Identity)

/-- What the system answers. -/
inductive Answer where
  | done
  | fault (error : Posix.Errno)
  | directory (answers : DirectoryAnswers)
  /-- A generated key and the random bytes of the serial number. -/
  | random (pkcs8 serial : Option Bytes)
  /-- So many bytes have been written. -/
  | wrote (n : ℕ)

section

variable (ring : Ed25519) (sha256 : Sha256) (euid : UInt32) (umask : ℕ → UInt32)

/-- What is to be written for an identity. -/
def Material.generate (pkcs8 serial : Option Bytes) : Except QuicSyncError Material :=
  match pkcs8 with
  | none => .error (configurationError "generate identity key")
  | some privateKey =>
    match ring.fromPkcs8 privateKey with
    | none => .error (configurationError "parse generated identity key")
    | some keyPair => (selfSignedCertificate ring keyPair serial).map fun certificate =>
        ⟨privateKey, certificate⟩

namespace Call

/-- The call fails while it loads. -/
def refuse (error : QuicSyncError) : Option (Call × Edit) :=
  some (.returned false (.error error), .keep)

/-- The two files must be there, or neither. -/
def decide : Bool → Bool → Call
  | true, true => .checkingCertificate
  | false, false => .generating
  | _, _ => .returned false (.error (configurationError
      "identity certificate and private key must either both exist or both be absent"))

/-- A file must be a regular one. -/
def checkRegularFile (name : String) (file : Option StoredFile) (next : Call) :
    Option (Call × Edit) :=
  match file with
  | none => refuse (identityError "inspect identity file" .noent)
  | some f =>
    if f.regular then some (next, .keep)
    else refuse (configurationError (name ++ " must be a regular file"))

/-- The private key must be the user's own, and nobody else's. -/
def checkPrivateKeyPermissions (file : Option StoredFile) : Option (Call × Edit) :=
  match file with
  | none => refuse (identityError "inspect identity private key" .noent)
  | some f =>
    if f.uid ≠ euid then
      refuse (configurationError "identity private key must be owned by the current user")
    else if f.mode &&& 0o077 ≠ 0 then
      refuse (configurationError
        "identity private key must not be accessible by group or other users")
    else some (.readingCertificate, .keep)

/-- The next system call of a call, with what the system answers. -/
def next (store : Store) : Call → Answer → Option (Call × Edit)
  | .preparing, .directory answers =>
    match prepareDirectory euid answers with
    | .ok () => some (.looking, .keep)
    | .error e => refuse e
  -- a file that cannot be looked at does not exist
  | .looking, .done => some (.lookingForKey (store.certificate.any (·.found)), .keep)
  | .looking, .fault _ => some (.lookingForKey false, .keep)
  | .lookingForKey certificate, .done =>
    some (decide certificate (store.privateKey.any (·.found)), .keep)
  | .lookingForKey certificate, .fault _ => some (decide certificate false, .keep)
  | .checkingCertificate, .done =>
    checkRegularFile "identity certificate" store.certificate .checkingKey
  | .checkingKey, .done =>
    checkRegularFile "identity private key" store.privateKey .checkingPermissions
  | .checkingCertificate, .fault e | .checkingKey, .fault e =>
    refuse (identityError "inspect identity file" e)
  | .checkingPermissions, .done => checkPrivateKeyPermissions euid store.privateKey
  | .checkingPermissions, .fault e => refuse (identityError "inspect identity private key" e)
  | .readingCertificate, .done =>
    match store.certificate with
    | some f => some (.readingKey f.content, .keep)
    | none => refuse (identityError "read identity certificate" .noent)
  | .readingCertificate, .fault e => refuse (identityError "read identity certificate" e)
  | .readingKey certificate, .done =>
    match store.privateKey with
    | some f => some (.returned false (Identity.fromDer ring sha256 certificate f.content), .keep)
    | none => refuse (identityError "read identity private key" .noent)
  | .readingKey _, .fault e => refuse (identityError "read identity private key" e)
  | .generating, .random pkcs8 serial =>
    match Material.generate ring pkcs8 serial with
    | .ok material => some (.creatingKey material, .keep)
    | .error e => some (.returned true (.error e), .keep)
  | .creatingKey material, .done =>
    if store.privateKey.isSome then
      some (.returned true (.error (identityError "create identity private key" .exist)), .keep)
    else some (.writingKey material material.privateKey, .createKey)
  | .creatingKey _, .fault e =>
    some (.returned true (.error (identityError "create identity private key" e)), .keep)
  | .writingKey material rest, .wrote n =>
    if 0 < n ∧ n ≤ rest.length then
      some (.writingKey material (rest.drop n), .appendKey (rest.take n))
    else none
  | .writingKey material [], .done => some (.creatingCertificate material, .keep)
  -- what has been written of the key stays
  | .writingKey _ _, .fault e =>
    some (.returned true (.error (identityError "persist identity private key" e)), .keep)
  | .creatingCertificate material, .done =>
    if store.certificate.isSome then
      some (.removingKey (identityError "create identity file" .exist), .keep)
    else some (.writingCertificate material material.certificate, .createCertificate)
  | .creatingCertificate _, .fault e =>
    some (.removingKey (identityError "create identity file" e), .keep)
  | .writingCertificate material rest, .wrote n =>
    if 0 < n ∧ n ≤ rest.length then
      some (.writingCertificate material (rest.drop n), .appendCertificate (rest.take n))
    else none
  | .writingCertificate material [], .done =>
    some (.returned true (Identity.fromDer ring sha256 material.certificate material.privateKey),
      .keep)
  | .writingCertificate _ _, .fault e =>
    some (.removingKey (identityError "persist identity file" e), .keep)
  | .removingKey e, .done => some (.returned true (.error e), .removeKey)
  | .removingKey e, .fault _ => some (.returned true (.error e), .keep)
  | _, _ => none

end Call

/-! ### All calls -/

/-- The store, and where the calls on it are. -/
structure Identities where
  store : Store
  calls : ℕ → Call

namespace Identities

def start (store : Store) : Identities := ⟨store, fun _ => .preparing⟩

/-- Call `p` makes its next system call. -/
def step (s : Identities) (event : ℕ × Answer) : Option Identities :=
  ((s.calls event.1).next ring sha256 euid s.store event.2).map fun next =>
    ⟨s.store.edit euid umask event.1 next.2, Function.update s.calls event.1 next.1⟩

end Identities


/-! ### What a call does -/

namespace Call

/-- A call that relies on nothing. -/
def Quiet : Call → Prop
  | .readingKey _ | .writingKey _ _ | .creatingCertificate _ | .writingCertificate _ _
  | .removingKey _ | .returned _ (.ok _) => False
  | _ => True

/-- What one system call can do: nothing that matters, or one of the steps of loading and
creating. -/
inductive Acts (store : Store) : Call → Call → Edit → Prop
  | quiet {call call'} (h : call'.Quiet) : Acts store call call' .keep
  | readCertificate {f} (h : store.certificate = some f) :
    Acts store .readingCertificate (.readingKey f.content) .keep
  | readKey {certificate f} (h : store.privateKey = some f) :
    Acts store (.readingKey certificate)
      (.returned false (Identity.fromDer ring sha256 certificate f.content)) .keep
  | createKey {material} (h : store.privateKey = none) :
    Acts store (.creatingKey material) (.writingKey material material.privateKey) .createKey
  | writeKey {material rest} (n : ℕ) :
    Acts store (.writingKey material rest) (.writingKey material (rest.drop n))
      (.appendKey (rest.take n))
  | persistKey {material} :
    Acts store (.writingKey material []) (.creatingCertificate material) .keep
  | createCertificate {material} (h : store.certificate = none) :
    Acts store (.creatingCertificate material) (.writingCertificate material material.certificate)
      .createCertificate
  | refuseCertificate {material e} :
    Acts store (.creatingCertificate material) (.removingKey e) .keep
  | writeCertificate {material rest} (n : ℕ) :
    Acts store (.writingCertificate material rest) (.writingCertificate material (rest.drop n))
      (.appendCertificate (rest.take n))
  | persistCertificate {material} :
    Acts store (.writingCertificate material [])
      (.returned true (Identity.fromDer ring sha256 material.certificate material.privateKey)) .keep
  | failCertificate {material rest e} :
    Acts store (.writingCertificate material rest) (.removingKey e) .keep
  | removeKey {e} : Acts store (.removingKey e) (.returned true (.error e)) .removeKey

end Call

/-! ### What a call relies on -/

/-- The private key is one that call `p` has created, with what it has written. -/
def Store.KeyOf (p : ℕ) (store : Store) (content : Bytes) : Prop :=
  store.privateKey = some { StoredFile.newKey euid umask p with content }

/-- The certificate is one that call `p` has created, with what it has written. -/
def Store.CertificateOf (p : ℕ) (store : Store) (content : Bytes) : Prop :=
  store.certificate = some { StoredFile.newCertificate euid umask p with content }

/-- Some bytes have been read of the certificate; more may have been written since. -/
def Store.HasRead (store : Store) (bytes : Bytes) : Prop :=
  ∃ f, store.certificate = some f ∧ bytes <+: f.content

namespace Call

/-- What call `p` relies on. -/
def Holds (p : ℕ) (store : Store) : Call → Prop
  | .readingKey certificate => store.HasRead certificate
  | .writingKey material rest =>
    ∃ written, store.KeyOf euid umask p written ∧ written ++ rest = material.privateKey
  | .creatingCertificate material => store.KeyOf euid umask p material.privateKey
  | .writingCertificate material rest => store.KeyOf euid umask p material.privateKey ∧
      ∃ written, store.CertificateOf euid umask p written ∧ written ++ rest = material.certificate
  | .removingKey _ => ∃ written, store.KeyOf euid umask p written
  | .returned creation (.ok identity) =>
    Identity.fromDer ring sha256 identity.certificate identity.privateKey = .ok identity ∧
      store.HasRead identity.certificate ∧
      (creation = true → store.KeyOf euid umask p identity.privateKey ∧
        store.CertificateOf euid umask p identity.certificate)
  | _ => True

/-- What the other calls may expect of an edit by call `p`. -/
def Allows (p : ℕ) (store : Store) : Edit → Prop
  | .createKey => store.privateKey = none
  | .createCertificate => store.certificate = none
  | .removeKey => ∃ written, store.KeyOf euid umask p written
  | _ => True

end Call

end

section

variable {ring : Ed25519} {sha256 : Sha256} {euid : UInt32} {umask : ℕ → UInt32} {p q : ℕ}
  {store store' : Store} {call call' : Call} {answer : Answer} {edit : Edit}

/-- An identity has the two files it is made from. -/
theorem fromDer_ok {certificate privateKey : Bytes} {identity : Identity}
    (h : Identity.fromDer ring sha256 certificate privateKey = .ok identity) :
    identity.certificate = certificate ∧ identity.privateKey = privateKey ∧
      fingerprintCertificate sha256 certificate = some identity.fingerprint := by
  unfold Identity.fromDer at h
  split at h
  · cases h
  split at h
  · cases h
  rename_i f hf
  dsimp only at h
  split at h
  · cases h
  rename_i heq
  rw [not_not] at heq
  cases h
  exact ⟨rfl, rfl, heq ▸ hf⟩

namespace Call

theorem quiet_decide (certificate privateKey : Bool) : (decide certificate privateKey).Quiet := by
  cases certificate <;> cases privateKey <;> exact trivial

/-- Looking at a file matters to nobody. -/
theorem quiet_checkRegularFile {name : String} {file : Option StoredFile} {next : Call}
    (hquiet : next.Quiet) (h : checkRegularFile name file next = some (call', edit)) :
    call'.Quiet ∧ edit = .keep := by
  unfold checkRegularFile at h
  split at h
  · cases h
    exact ⟨trivial, rfl⟩
  · split at h <;> cases h
    · exact ⟨hquiet, rfl⟩
    · exact ⟨trivial, rfl⟩

theorem quiet_checkPrivateKeyPermissions {file : Option StoredFile}
    (h : checkPrivateKeyPermissions euid file = some (call', edit)) :
    call'.Quiet ∧ edit = .keep := by
  unfold checkPrivateKeyPermissions at h
  split at h
  · cases h
    exact ⟨trivial, rfl⟩
  · split at h
    · cases h
      exact ⟨trivial, rfl⟩
    · split at h <;> cases h <;> exact ⟨trivial, rfl⟩

/-- **Inversion**: a system call does one of these things. -/
theorem acts_of_next (h : call.next ring sha256 euid store answer = some (call', edit)) :
    call.Acts ring sha256 store call' edit := by
  revert h
  fun_cases Call.next ring sha256 euid store call answer
  case case5 => rintro ⟨⟩; exact .quiet (quiet_decide _ _)
  case case6 => rintro ⟨⟩; exact .quiet (quiet_decide _ _)
  case case7 =>
    intro h
    obtain ⟨hquiet, rfl⟩ := quiet_checkRegularFile (by trivial) h
    exact .quiet hquiet
  case case8 =>
    intro h
    obtain ⟨hquiet, rfl⟩ := quiet_checkRegularFile (by trivial) h
    exact .quiet hquiet
  case case11 =>
    intro h
    obtain ⟨hquiet, rfl⟩ := quiet_checkPrivateKeyPermissions h
    exact .quiet hquiet
  case case13 hf => rintro ⟨⟩; exact .readCertificate hf
  case case16 hf => rintro ⟨⟩; exact .readKey hf
  case case22 h => rintro ⟨⟩; exact .createKey (by simpa using h)
  case case24 => rintro ⟨⟩; exact .writeKey _
  case case26 => rintro ⟨⟩; exact .persistKey
  case case28 => rintro ⟨⟩; exact .refuseCertificate
  case case29 h => rintro ⟨⟩; exact .createCertificate (by simpa using h)
  case case30 => rintro ⟨⟩; exact .refuseCertificate
  case case31 => rintro ⟨⟩; exact .writeCertificate _
  case case33 => rintro ⟨⟩; exact .persistCertificate
  case case34 => rintro ⟨⟩; exact .failCertificate
  case case35 => rintro ⟨⟩; exact .removeKey
  -- the other system calls only decide where to go on
  all_goals
    rintro ⟨⟩
    try exact .quiet trivial

/-- A quiet call relies on nothing. -/
theorem Quiet.holds (h : call.Quiet) : call.Holds ring sha256 euid umask p store := by
  rcases call with _ | _ | _ | _ | _ | _ | _ | _ | _ | _ | _ | _ | _ | _ | ⟨_, _ | _⟩
  all_goals first | exact trivial | exact h.elim

/-- What other calls may expect of a step. -/
theorem Acts.allows (hacts : call.Acts ring sha256 store call' edit)
    (h : call.Holds ring sha256 euid umask p store) : Allows euid umask p store edit := by
  cases hacts
  case createKey hnone => exact hnone
  case createCertificate hnone => exact hnone
  case removeKey => exact h
  all_goals exact trivial

end Call

/-! ### What other calls leave alone -/

namespace Store

variable {bytes content : Bytes}

/-- Another call does not touch the private key of a call. -/
theorem KeyOf.frame (h : store.KeyOf euid umask q content) (hne : p ≠ q)
    (hallows : Call.Allows euid umask p store edit) :
    (store.edit euid umask p edit).KeyOf euid umask q content := by
  simp only [KeyOf, StoredFile.newKey] at h ⊢
  rcases edit with _ | _ | bytes | _ | _ | bytes
  case createKey => simp [Call.Allows, h] at hallows
  case appendKey => simp [Store.edit, h, StoredFile.append, hne.symm]
  case removeKey =>
    obtain ⟨written, hkey⟩ := hallows
    simp only [KeyOf, StoredFile.newKey, h, Option.some.injEq, StoredFile.mk.injEq] at hkey
    exact absurd hkey.1.symm hne
  all_goals exact h

/-- Nor the certificate. -/
theorem CertificateOf.frame (h : store.CertificateOf euid umask q content) (hne : p ≠ q)
    (hallows : Call.Allows euid umask p store edit) :
    (store.edit euid umask p edit).CertificateOf euid umask q content := by
  simp only [CertificateOf, StoredFile.newCertificate] at h ⊢
  rcases edit with _ | _ | bytes | _ | _ | bytes
  case createCertificate => simp [Call.Allows, h] at hallows
  case appendCertificate => simp [Store.edit, h, StoredFile.append, hne.symm]
  all_goals exact h

/-- What has been read of the certificate stays: it is never removed, and written only at its
end. -/
theorem HasRead.frame (h : store.HasRead bytes) (hallows : Call.Allows euid umask p store edit) :
    (store.edit euid umask p edit).HasRead bytes := by
  obtain ⟨f, hf, hbytes⟩ := h
  rcases edit with _ | _ | bytes | _ | _ | more
  case createCertificate => simp [Call.Allows, hf] at hallows
  case appendCertificate =>
    refine ⟨f.append p more, by simp [Store.edit, hf], ?_⟩
    unfold StoredFile.append
    split
    · exact hbytes.trans (List.prefix_append _ _)
    · exact hbytes
  all_goals exact ⟨f, hf, hbytes⟩

theorem CertificateOf.hasRead (h : store.CertificateOf euid umask p content) :
    store.HasRead content := ⟨_, h, List.prefix_rfl⟩

/-- A call writes at the end of the private key it has created. -/
theorem KeyOf.append (h : store.KeyOf euid umask p content) :
    (store.edit euid umask p (.appendKey bytes)).KeyOf euid umask p (content ++ bytes) := by
  simp only [KeyOf, StoredFile.newKey] at h ⊢
  simp [Store.edit, h, StoredFile.append]

/-- A call writes at the end of the certificate it has created. -/
theorem CertificateOf.append (h : store.CertificateOf euid umask p content) :
    (store.edit euid umask p (.appendCertificate bytes)).CertificateOf euid umask p
      (content ++ bytes) := by
  simp only [CertificateOf, StoredFile.newCertificate] at h ⊢
  simp [Store.edit, h, StoredFile.append]

end Store

namespace Call

/-- A step keeps what the call relies on. -/
theorem Holds.acts (h : call.Holds ring sha256 euid umask p store)
    (hacts : call.Acts ring sha256 store call' edit) :
    call'.Holds ring sha256 euid umask p (store.edit euid umask p edit) := by
  cases hacts
  case quiet hquiet => exact hquiet.holds
  case readCertificate f hf => exact ⟨f, hf, List.prefix_rfl⟩
  case readKey certificate f hf =>
    rcases hfrom : Identity.fromDer ring sha256 certificate f.content with e | identity
    · exact trivial
    · obtain ⟨hcert, hkey, -⟩ := fromDer_ok hfrom
      refine ⟨by rwa [hcert, hkey], by rwa [hcert], ?_⟩
      rintro ⟨⟩
  case createKey => exact ⟨[], rfl, rfl⟩
  case writeKey material rest n =>
    obtain ⟨written, hkey, hrest⟩ := h
    exact ⟨_, hkey.append, by rw [List.append_assoc, List.take_append_drop, hrest]⟩
  case persistKey material =>
    obtain ⟨written, hkey, hrest⟩ := h
    rw [List.append_nil] at hrest
    rwa [hrest] at hkey
  case createCertificate => exact ⟨h, [], rfl, rfl⟩
  case refuseCertificate => exact ⟨_, h⟩
  case writeCertificate material rest n =>
    obtain ⟨hkey, written, hcert, hrest⟩ := h
    exact ⟨hkey, _, hcert.append, by rw [List.append_assoc, List.take_append_drop, hrest]⟩
  case persistCertificate material =>
    obtain ⟨hkey, written, hcert, hrest⟩ := h
    rw [List.append_nil] at hrest
    rw [hrest] at hcert
    rcases hfrom : Identity.fromDer ring sha256 material.certificate material.privateKey with
      e | identity
    · exact trivial
    · obtain ⟨hcert', hkey', -⟩ := fromDer_ok hfrom
      rw [← hcert'] at hcert
      rw [← hkey'] at hkey
      exact ⟨by rwa [hcert', hkey'], hcert.hasRead, fun _ => ⟨hkey, hcert⟩⟩
  case failCertificate => exact ⟨_, h.1⟩
  case removeKey => exact trivial

/-- The other calls keep what a call relies on. -/
theorem Holds.frame (h : call.Holds ring sha256 euid umask q store) (hne : p ≠ q)
    (hallows : Allows euid umask p store edit) :
    call.Holds ring sha256 euid umask q (store.edit euid umask p edit) := by
  rcases call with _ | _ | _ | _ | _ | _ | _ | certificate | _ | _ | ⟨material, rest⟩ | material |
    ⟨material, rest⟩ | e | ⟨creation, e | identity⟩
  case readingKey => exact Store.HasRead.frame h hallows
  case writingKey =>
    obtain ⟨written, hkey, hrest⟩ := h
    exact ⟨written, hkey.frame hne hallows, hrest⟩
  case creatingCertificate => exact Store.KeyOf.frame h hne hallows
  case writingCertificate =>
    obtain ⟨hkey, written, hcert, hrest⟩ := h
    exact ⟨hkey.frame hne hallows, written, hcert.frame hne hallows, hrest⟩
  case removingKey =>
    obtain ⟨written, hkey⟩ := h
    exact ⟨written, hkey.frame hne hallows⟩
  case returned.ok =>
    obtain ⟨hfrom, hread, hcreation⟩ := h
    refine ⟨hfrom, hread.frame hallows, fun hc => ?_⟩
    obtain ⟨hkey, hcert⟩ := hcreation hc
    exact ⟨hkey.frame hne hallows, hcert.frame hne hallows⟩
  all_goals exact trivial

end Call

/-! ### Runs -/

/-- Nobody but the owner may use a private key that a call has created. -/
theorem newKey_mode (umask : UInt32) : (0o600 &&& ~~~umask) &&& 0o077 = 0 := by
  have h : (0o600 : UInt32) &&& 0o077 = 0 := by decide
  rw [UInt32.and_assoc, UInt32.and_comm (~~~umask), ← UInt32.and_assoc, h, UInt32.zero_and]

/-- No certificate is the beginning of another one. -/
theorem certificate_eq_of_prefix {a b c : Bytes} {f g : Fingerprint}
    (ha : fingerprintCertificate sha256 a = some f) (hb : fingerprintCertificate sha256 b = some g)
    (hac : a <+: c) (hbc : b <+: c) : a = b := by
  have helement {x : Bytes} {f : Fingerprint} (h : fingerprintCertificate sha256 x = some f) :
      ∃ value, value.length < 2 ^ 64 ∧ x = der 0x30 value := by
    simp only [fingerprintCertificate, Option.bind_eq_bind] at h
    obtain ⟨⟨tag, value, remaining⟩, houter, hrest⟩ := Option.bind_eq_some_iff.1 h
    obtain ⟨hvalue, rfl⟩ := derValue_eq_some_iff.1 houter
    simp only at hrest
    split at hrest
    · cases hrest
    rename_i htag
    simp only [not_or, not_not] at htag
    obtain ⟨rfl, rfl⟩ := htag
    exact ⟨value, hvalue, List.append_nil _⟩
  obtain ⟨value, hvalue, rfl⟩ := helement ha
  obtain ⟨value', hvalue', rfl⟩ := helement hb
  obtain ⟨rest, rfl⟩ := hac
  obtain ⟨rest', heq⟩ := hbc
  have h : derValue (der 0x30 value ++ rest) = some (0x30, value, rest) :=
    derValue_eq_some_iff.2 ⟨hvalue, rfl⟩
  rw [derValue_eq_some_iff.2 ⟨hvalue', heq.symm⟩] at h
  simp only [Option.some.injEq, Prod.mk.injEq] at h
  rw [h.2.1]

namespace Identities

variable {s s' : Identities} {event : ℕ × Answer}

/-- Every call has what it relies on. -/
def Inv (ring : Ed25519) (sha256 : Sha256) (euid : UInt32) (umask : ℕ → UInt32) (s : Identities) :
    Prop :=
  ∀ p, (s.calls p).Holds ring sha256 euid umask p s.store

theorem inv_start (store : Store) : Inv ring sha256 euid umask (start store) := fun _ => trivial

/-- What one step does. -/
theorem step_cases (h : step ring sha256 euid umask s event = some s') :
    ∃ call edit, (s.calls event.1).next ring sha256 euid s.store event.2 = some (call, edit) ∧
      s' = ⟨s.store.edit euid umask event.1 edit, Function.update s.calls event.1 call⟩ := by
  obtain ⟨⟨call, edit⟩, hnext, rfl⟩ := Option.map_eq_some_iff.1 h
  exact ⟨call, edit, hnext, rfl⟩

theorem Inv.step (h : Inv ring sha256 euid umask s)
    (hstep : s.step ring sha256 euid umask event = some s') : Inv ring sha256 euid umask s' := by
  obtain ⟨call, edit, hnext, rfl⟩ := step_cases hstep
  have hacts := Call.acts_of_next hnext
  intro q
  dsimp only
  by_cases hq : q = event.1
  · subst hq
    rw [Function.update_self]
    exact (h event.1).acts hacts
  · rw [Function.update_of_ne hq]
    exact (h q).frame (Ne.symm hq) (hacts.allows (h event.1))

theorem Inv.allows (h : Inv ring sha256 euid umask s) {call : Call}
    (hnext : (s.calls event.1).next ring sha256 euid s.store event.2 = some (call, edit)) :
    Call.Allows euid umask event.1 s.store edit :=
  (Call.acts_of_next hnext).allows (h event.1)

/-- A file that no call has created is left alone. -/
theorem Inv.untouched (h : Inv ring sha256 euid umask s)
    (hstep : s.step ring sha256 euid umask event = some s') {f : StoredFile}
    (hnew : f.creator = none) :
    (s.store.privateKey = some f → s'.store.privateKey = some f) ∧
      (s.store.certificate = some f → s'.store.certificate = some f) := by
  obtain ⟨call, edit, hnext, rfl⟩ := step_cases hstep
  have hallows := h.allows hnext
  constructor
  · intro hf
    rcases edit with _ | _ | bytes | _ | _ | bytes
    case createKey => simp [Call.Allows, hf] at hallows
    case appendKey => simp [Store.edit, hf, StoredFile.append, hnew]
    case removeKey =>
      obtain ⟨written, hkey⟩ := hallows
      simp only [Store.KeyOf, hf, StoredFile.newKey, Option.some.injEq] at hkey
      rw [hkey] at hnew
      cases hnew
    all_goals exact hf
  · intro hf
    rcases edit with _ | _ | bytes | _ | _ | bytes
    case createCertificate => simp [Call.Allows, hf] at hallows
    case appendCertificate => simp [Store.edit, hf, StoredFile.append, hnew]
    all_goals exact hf

/-- Nobody but the user may use the private key. -/
def KeyPrivate (euid : UInt32) (s : Identities) : Prop :=
  ∀ f, s.store.privateKey = some f → f.mode &&& 0o077 = 0 ∧ f.uid = euid

theorem KeyPrivate.step (h : s.KeyPrivate euid)
    (hstep : s.step ring sha256 euid umask event = some s') : s'.KeyPrivate euid := by
  obtain ⟨call, edit, -, rfl⟩ := step_cases hstep
  rcases edit with _ | _ | bytes | _ | _ | bytes
  case createKey =>
    rintro f ⟨⟩
    exact ⟨newKey_mode _, rfl⟩
  case appendKey =>
    intro f hf
    obtain ⟨f₀, hf₀, rfl⟩ := Option.map_eq_some_iff.1 hf
    unfold StoredFile.append
    split <;> exact h f₀ hf₀
  case removeKey =>
    rintro f ⟨⟩
  all_goals exact h

/-! ### Loading after a creation -/

/-- A call that loads `identity`, after `n` system calls. -/
def loading (identity : Identity) : ℕ → Call
  | 0 => .preparing
  | 1 => .looking
  | 2 => .lookingForKey true
  | 3 => .checkingCertificate
  | 4 => .checkingKey
  | 5 => .checkingPermissions
  | 6 => .readingCertificate
  | 7 => .readingKey identity.certificate
  | _ => .returned false (.ok identity)

/-- The system does not fail. -/
def Fine (euid : UInt32) : Answer → Prop
  | .done => True
  | .directory answers => prepareDirectory euid answers = .ok ()
  | _ => False

variable {identity : Identity} {n : ℕ}

/-- With the files of a creation in place a call goes on to load them, unless a system call
fails. -/
theorem loading_next (hkey : store.KeyOf euid umask p identity.privateKey)
    (hcert : store.CertificateOf euid umask p identity.certificate)
    (hfrom : Identity.fromDer ring sha256 identity.certificate identity.privateKey = .ok identity)
    (hfine : Fine euid answer) {call : Call}
    (hnext : (loading identity n).next ring sha256 euid store answer = some (call, edit)) :
    call = loading identity (n + 1) := by
  simp only [Store.KeyOf, Store.CertificateOf, StoredFile.newKey, StoredFile.newCertificate]
    at hkey hcert
  have hmode := newKey_mode (umask p)
  rcases answer with _ | e | answers | _ | _
  case fault => exact hfine.elim
  case random => exact hfine.elim
  case wrote => exact hfine.elim
  case directory =>
    rcases n with _ | _ | _ | _ | _ | _ | _ | _ | n
    all_goals simp_all [loading, Call.next, Fine]
  case done =>
    rcases n with _ | _ | _ | _ | _ | _ | _ | _ | n
    all_goals simp_all [loading, Call.next, Call.decide, Call.checkRegularFile,
      Call.checkPrivateKeyPermissions]

/-- A call that loads an identity waits for nobody. -/
theorem loading_ready (ring : Ed25519) (sha256 : Sha256)
    (hkey : store.KeyOf euid umask p identity.privateKey)
    (hcert : store.CertificateOf euid umask p identity.certificate) (hn : n < 8) :
    ∃ answer, Fine euid answer ∧
      ((loading identity n).next ring sha256 euid store answer).isSome := by
  simp only [Store.KeyOf, Store.CertificateOf, StoredFile.newKey, StoredFile.newCertificate]
    at hkey hcert
  have hmode := newKey_mode (umask p)
  have hdirectory : prepareDirectory euid ⟨none, .ok true, .ok euid, none⟩ = .ok () := by
    simp only [prepareDirectory, systemAnswer, Except.mapError, bind, Except.bind, ne_eq,
      not_true_eq_false, if_false]
    rfl
  rcases n with _ | _ | _ | _ | _ | _ | _ | _ | n
  · refine ⟨.directory ⟨none, .ok true, .ok euid, none⟩, hdirectory, ?_⟩
    simp [loading, Call.next, hdirectory]
  case' succ.succ.succ.succ.succ.succ.succ.succ => omega
  all_goals
    refine ⟨.done, trivial, ?_⟩
    simp [loading, Call.next, Call.checkRegularFile, Call.checkPrivateKeyPermissions, hkey, hcert,
      hmode]

/-- Once a creation has succeeded, a call that the system does not fail loads what it has
created. -/
theorem Inv.loads (h : Inv ring sha256 euid umask s)
    (hp : s.calls p = .returned true (.ok identity)) (hq : s.calls q = loading identity n)
    {events : List (ℕ × Answer)}
    (hrun : events.foldlM (Identities.step ring sha256 euid umask) s = some s')
    (hfine : ∀ e ∈ events, e.1 = q → Fine euid e.2) :
    Inv ring sha256 euid umask s' ∧ s'.calls p = .returned true (.ok identity) ∧
      s'.calls q = loading identity (n + events.countP (·.1 = q)) := by
  induction events generalizing s n with
  | nil =>
    cases hrun
    exact ⟨h, hp, hq⟩
  | cons e events ih =>
    rw [List.foldlM_cons] at hrun
    obtain ⟨s₁, hstep, hrest⟩ := Option.bind_eq_some_iff.1 hrun
    rw [List.forall_mem_cons] at hfine
    obtain ⟨call, edit, hnext, hs₁⟩ := step_cases hstep
    have hheld := h p
    rw [hp] at hheld
    obtain ⟨hfrom, -, hfiles⟩ := hheld
    obtain ⟨hkey, hcert⟩ := hfiles rfl
    -- the creation has returned, and does nothing more
    have hep : p ≠ e.1 := by
      intro heq
      rw [← heq, hp] at hnext
      cases hnext
    have hp₁ : s₁.calls p = .returned true (.ok identity) := by
      rw [hs₁]
      exact (Function.update_of_ne hep _ _).trans hp
    rw [List.countP_cons, Nat.add_comm (List.countP _ _), ← Nat.add_assoc]
    refine ih (h.step hstep) hp₁ ?_ hrest hfine.2
    by_cases heq : e.1 = q
    · rw [heq, hq] at hnext
      rw [hs₁, heq, if_pos (by simp)]
      exact (Function.update_self ..).trans (loading_next hkey hcert hfrom (hfine.1 heq) hnext)
    · rw [hs₁, if_neg (by simpa using heq)]
      exact (Function.update_of_ne (Ne.symm heq) _ _).trans hq

end Identities

end

/-- Concurrent calls agree on one identity: the certificates of any two that succeed are equal, and
once a creation has succeeded a later call can always go on, unless a system call fails, and returns
the identity that has been created after eight of its own.  The files that were there before are
left alone, and nobody but the user may ever use a private key that a call has created. -/
theorem identity_agreement (ring : Ed25519) (sha256 : Sha256) (euid : UInt32) (umask : ℕ → UInt32)
    (store : Store) (s : Identities)
    (h : Reaches (Identities.step ring sha256 euid umask) (.start store) s) :
    (∀ p q creation creation' i j, s.calls p = .returned creation (.ok i) →
      s.calls q = .returned creation' (.ok j) →
      i.certificate = j.certificate ∧ i.fingerprint = j.fingerprint) ∧
    (∀ p q i (events : List (ℕ × Answer)) (s' : Identities),
      s.calls p = .returned true (.ok i) → s.calls q = .preparing →
      events.foldlM (Identities.step ring sha256 euid umask) s = some s' →
      (∀ e ∈ events, e.1 = q → Identities.Fine euid e.2) →
      (events.countP (·.1 = q) < 8 → ∃ answer, Identities.Fine euid answer ∧
        (s'.step ring sha256 euid umask (q, answer)).isSome) ∧
      (8 ≤ events.countP (·.1 = q) → s'.calls q = .returned false (.ok i))) ∧
    (∀ f, f.creator = none →
      (store.privateKey = some f → s.store.privateKey = some f) ∧
      (store.certificate = some f → s.store.certificate = some f)) ∧
    (store.privateKey = none →
      ∀ f, s.store.privateKey = some f → f.mode &&& 0o077 = 0 ∧ f.uid = euid) := by
  have hinv : s.Inv ring sha256 euid umask :=
    h.invariant (Identities.inv_start store) fun _ _ _ hs hstep => hs.step hstep
  refine ⟨?_, ?_, ?_, ?_⟩
  · intro p q creation creation' i j hi hj
    have hip := hinv p
    have hjq := hinv q
    rw [hi] at hip
    rw [hj] at hjq
    obtain ⟨hifrom, ⟨f, hf, hic⟩, -⟩ := hip
    obtain ⟨hjfrom, ⟨f', hf', hjc⟩, -⟩ := hjq
    obtain rfl : f = f' := Option.some.inj (hf.symm.trans hf')
    obtain ⟨-, -, hiprint⟩ := fromDer_ok hifrom
    obtain ⟨-, -, hjprint⟩ := fromDer_ok hjfrom
    have heq := certificate_eq_of_prefix hiprint hjprint hic hjc
    rw [heq, hjprint] at hiprint
    exact ⟨heq, (Option.some.inj hiprint).symm⟩
  · intro p q i events s' hp hq hrun hfine
    obtain ⟨hinv', hp', hq'⟩ := hinv.loads (n := 0) hp hq hrun hfine
    rw [Nat.zero_add] at hq'
    refine ⟨fun hn => ?_, fun hn => ?_⟩
    · have hheld := hinv' p
      rw [hp'] at hheld
      obtain ⟨hkey, hcert⟩ := hheld.2.2 rfl
      obtain ⟨answer, hanswer, hnext⟩ :=
        Identities.loading_ready ring sha256 hkey hcert hn
      refine ⟨answer, hanswer, ?_⟩
      rw [Identities.step, hq', Option.isSome_map]
      exact hnext
    · obtain ⟨k, hk⟩ := Nat.exists_eq_add_of_le' hn
      rw [hq', hk]
      rfl
  · intro f hf
    constructor
    · intro hkey
      exact (h.invariant (I := fun s => s.Inv ring sha256 euid umask ∧ s.store.privateKey = some f)
        ⟨Identities.inv_start store, hkey⟩ fun _ _ _ hs hstep =>
          ⟨hs.1.step hstep, (hs.1.untouched hstep hf).1 hs.2⟩).2
    · intro hcert
      exact (h.invariant (I := fun s => s.Inv ring sha256 euid umask ∧ s.store.certificate = some f)
        ⟨Identities.inv_start store, hcert⟩ fun _ _ _ hs hstep =>
          ⟨hs.1.step hstep, (hs.1.untouched hstep hf).2 hs.2⟩).2
  · intro hnone
    refine h.invariant (I := Identities.KeyPrivate euid) ?_ fun _ _ _ hs hstep => hs.step hstep
    intro f hf
    rw [show (Identities.start store).store.privateKey = none from hnone] at hf
    cases hf

/-! Two calls find no identity; one of them creates it, and a third one loads it. -/

def sampleIdentity : Identity where
  certificate := certificateOf sampleKey sampleSerial sampleSignature
  privateKey := samplePkcs8
  fingerprint := fingerprintSpki sampleSha256 (ed25519Spki sampleKey)

def fineDirectory : Answer := .directory ⟨none, .ok true, .ok 1000, none⟩

def contendedRun : List (ℕ × Answer) :=
  [(0, fineDirectory), (1, fineDirectory), (0, .done), (1, .done), (0, .done), (1, .done),
    (1, .random (some samplePkcs8) (some sampleSerial)),
    (0, .random (some samplePkcs8) (some sampleSerial)), (0, .done), (1, .done), (0, .wrote 40),
    (0, .wrote 43), (0, .done), (0, .done), (0, .wrote 100), (0, .wrote 89), (0, .done)]

def loadingRun : List (ℕ × Answer) := (2, fineDirectory) :: List.replicate 7 (2, .done)

def sampleStep : Identities → ℕ × Answer → Option Identities :=
  Identities.step sampleRing sampleSha256 1000 fun _ => 0o022

set_option maxRecDepth 4000 in
theorem contendedRun_calls : (contendedRun.foldlM sampleStep (.start ⟨none, none⟩)).map
    (fun s => (s.calls 0, s.calls 1, s.calls 2)) = some (.returned true (.ok sampleIdentity),
      .returned true (.error (identityError "create identity private key" .exist)),
      .preparing) := by
  rfl

/-- The third call returns the identity of the first one. -/
theorem identity_agreement_contended : ∃ s s',
    contendedRun.foldlM sampleStep (.start ⟨none, none⟩) = some s ∧
    loadingRun.foldlM sampleStep s = some s' ∧
    s'.calls 2 = .returned false (.ok sampleIdentity) := by
  obtain ⟨s, hs, hcalls⟩ := Option.map_eq_some_iff.1 contendedRun_calls
  simp only [Prod.mk.injEq] at hcalls
  have hsome : ((contendedRun ++ loadingRun).foldlM sampleStep (.start ⟨none, none⟩)).isSome := by
    decide +kernel
  rw [List.foldlM_append, hs] at hsome
  obtain ⟨s', hs'⟩ := Option.isSome_iff_exists.1 hsome
  refine ⟨s, s', hs, hs', ?_⟩
  have hfine : ∀ e ∈ loadingRun, e.1 = 2 → Identities.Fine 1000 e.2 := by
    intro e he _
    rcases List.mem_cons.1 he with rfl | he
    · exact (rfl : prepareDirectory 1000 ⟨none, .ok true, .ok 1000, none⟩ = .ok ())
    · rw [(List.mem_replicate.1 he).2]
      trivial
  exact ((identity_agreement sampleRing sampleSha256 1000 (fun _ => 0o022) ⟨none, none⟩ s
    ⟨contendedRun, hs⟩).2.1 0 2 sampleIdentity loadingRun s' hcalls.1 hcalls.2.2 hs' hfine).2
      (by decide)

end QuicSync
