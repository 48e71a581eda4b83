import QuicSync.Auth.Fingerprint
import QuicSync.Effect.Distinct
import QuicSync.Protocol.Format

/-!
# Loading a configuration

The administrative directory of a root holds the private key and the configuration file of an
endpoint.  Loading checks who owns them and who may write to them, and then every value of the
file.  What the system answers about a path is a parameter, as are the parsers of the file and of
addresses, which are not the program's own.

* `DestinationConfig.Accepts` : what the file of a destination has to say, and what comes of it;
* `loadDestination_eq_ok_iff`, `loadSource_eq_ok_iff` : loading returns exactly that.
-/

namespace QuicSync

namespace Config

/-! ### The system -/

inductive FileKind where
  | regular
  | directory
  | symlink
  | other
  deriving DecidableEq

/-- What the system knows about a file. -/
structure Metadata where
  kind : FileKind
  mode : UInt32
  uid : UInt32
  device : UInt64
  inode : UInt64
  deriving DecidableEq

/-- Why the text of a file cannot be read. -/
inductive ReadFault where
  | system (error : Posix.Errno)
  | encoding

/-- An open file: what the system answers about it, and its text. -/
structure OpenFile where
  metadata : Except Posix.Errno Metadata
  contents : Except ReadFault String

/-- What the system answers about the files while a configuration is loaded. -/
structure Host where
  /-- The effective user. -/
  euid : UInt32
  symlinkMetadata : Bytes → Except Posix.Errno Metadata
  metadata : Bytes → Except Posix.Errno Metadata
  /-- Open a directory for reading, not following a link. -/
  openDirectory : Bytes → Except Posix.Errno OpenFile
  /-- Open a file for reading, not following a link. -/
  openFile : Bytes → Except Posix.Errno OpenFile

def isAbsolute (path : Bytes) : Bool := path.head? = some 47

/-- A path below another one; an absolute path replaces it. -/
def joinPath (base path : Bytes) : Bytes :=
  if isAbsolute path then path
  else if base.getLast?.all (· = 47) then base ++ path
  else base ++ 47 :: path

def adminDirectory : Bytes := ascii ".quicsync"

def privateKeyFile : Bytes := ascii "identity.key"

def sourceConfig : Bytes := ascii "source.toml"

def destinationConfig : Bytes := ascii "destination.toml"

/-- An error about a path. -/
def invalidPath (before : String) (path : Bytes) (after : String) (error : Option Posix.Errno) :
    QuicSyncError :=
  QuicSyncError.new .invalidConfiguration none (.component before path after error)

/-- An opened directory that was verified not to be a symbolic link. -/
structure ValidatedRoot where
  path : Bytes
  device : UInt64
  inode : UInt64
  deriving DecidableEq

/-- What tells a directory from all others. -/
def ValidatedRoot.filesystemIdentity (root : ValidatedRoot) : UInt64 × UInt64 :=
  (root.device, root.inode)

section

variable (host : Host)

def rejectSymlink (path : Bytes) (description : String) : Except QuicSyncError Unit := do
  let metadata ← (host.symlinkMetadata path).mapError fun e =>
    invalidPath ("cannot inspect " ++ description ++ " '") path "': " (some e)
  if metadata.kind = .symlink then
    .error (invalidPath (description ++ " '") path "' must not be a symbolic link" none)
  else .ok ()

def openRoot (path : Bytes) : Except QuicSyncError ValidatedRoot := do
  rejectSymlink host path "root"
  let directory ← (host.openDirectory path).mapError fun e =>
    invalidPath "cannot open root '" path "': " (some e)
  let metadata ← directory.metadata.mapError fun e =>
    invalidPath "cannot inspect root '" path "': " (some e)
  if metadata.kind ≠ .directory then
    .error (invalidPath "root '" path "' is not a directory" none)
  else .ok ⟨path, metadata.device, metadata.inode⟩

def validateOwner (path : Bytes) (metadata : Metadata) : Except QuicSyncError Unit :=
  if metadata.uid ≠ host.euid then
    .error (invalidPath "'" path "' is not owned by the current user" none)
  else .ok ()

def validateAdminDirectory (root : Bytes) : Except QuicSyncError Bytes := do
  let path := joinPath root adminDirectory
  rejectSymlink host path "administrative directory"
  let metadata ← (host.metadata path).mapError fun e =>
    invalidPath "cannot inspect administrative directory '" path "': " (some e)
  if metadata.kind ≠ .directory then
    .error (invalidPath "administrative path '" path "' is not a directory" none)
  else do
    validateOwner host path metadata
    if metadata.mode &&& 0o022 ≠ 0 then
      .error (invalidPath "administrative directory '" path "' is writable by another user" none)
    else .ok path

def openSecureFile (path : Bytes) : Except QuicSyncError OpenFile := do
  let file ← (host.openFile path).mapError fun e =>
    invalidPath "cannot open '" path "': " (some e)
  let metadata ← file.metadata.mapError fun e =>
    invalidPath "cannot inspect '" path "': " (some e)
  if metadata.kind ≠ .regular then
    .error (invalidPath "'" path "' is not a regular file" none)
  else do
    validateOwner host path metadata
    if metadata.mode &&& 0o022 ≠ 0 then
      .error (invalidPath "'" path "' is writable by another user" none)
    else .ok file

def validatePrivateKey (admin : Bytes) : Except QuicSyncError Bytes := do
  let path := joinPath admin privateKeyFile
  let file ← openSecureFile host path
  let metadata ← file.metadata.mapError fun e =>
    QuicSyncError.new .invalidConfiguration none (.system "cannot inspect private key: " e)
  if metadata.mode &&& 0o777 ≠ 0o600 then
    .error (invalidPath "private key '" path "' must have mode 0600" none)
  else .ok path

/-- The text of a file, as `parse` reads it. -/
def readToml {α : Type} (parse : String → Except String α) (path : Bytes) :
    Except QuicSyncError α := do
  let file ← openSecureFile host path
  let contents ← file.contents.mapError fun
    | .system e => invalidPath "cannot read '" path "': " (some e)
    | .encoding => invalidPath "cannot read '" path "': stream did not contain valid UTF-8" none
  (parse contents).mapError fun message =>
    invalidPath "cannot parse '" path ("': " ++ message) none

end

/-! ### The values -/

/-- The limits that a file sets. -/
structure RawLimits where
  maxFrameBytes : Option UInt64
  maxPathBytes : Option UInt64
  maxComponents : Option UInt64
  maxParallelHashes : Option UInt64
  maxParallelTransfers : Option UInt64
  maxInflightBytes : Option UInt64

/-- The limits with the defaults for those that are not set. -/
def RawLimits.limits (raw : RawLimits) : Limits where
  maxFrameBytes := raw.maxFrameBytes.getD defaultLimits.maxFrameBytes
  maxPathBytes := raw.maxPathBytes.getD defaultLimits.maxPathBytes
  maxComponents := raw.maxComponents.getD defaultLimits.maxComponents
  maxParallelHashes := raw.maxParallelHashes.getD defaultLimits.maxParallelHashes
  maxParallelTransfers := raw.maxParallelTransfers.getD defaultLimits.maxParallelTransfers
  maxInflightBytes := raw.maxInflightBytes.getD defaultLimits.maxInflightBytes

def RawLimits.resolve (raw : RawLimits) : Except QuicSyncError Limits := raw.limits.validate

/-- A byte of a letter, a digit, or one of three marks. -/
def isNameByte (byte : UInt8) : Bool :=
  (48 ≤ byte && byte ≤ 57) || (65 ≤ byte && byte ≤ 90) || (97 ≤ byte && byte ≤ 122) ||
    byte = 45 || byte = 95 || byte = 46

/-- A text of at most `n` such bytes, and at least one. -/
def isName (n : ℕ) (value : String) : Bool :=
  !value.toList.isEmpty && Utf8.byteLength value.toList ≤ n &&
    (Utf8.bytes value.toList).all isNameByte

end Config

open Config

/-- A validated, protocol-safe root nickname. -/
structure RootId where
  value : String
  valid : isName 128 value = true
  deriving DecidableEq

def RootId.parse (value : String) : Except QuicSyncError RootId :=
  if h : isName 128 value then .ok ⟨value, h⟩
  else .error (invalid "root ID must be 1-128 ASCII letters, digits, '.', '-' or '_'")

instance PeerPin.instDecidableEq : DecidableEq PeerPin := fun a b =>
  decidable_of_iff (a.bytes = b.bytes)
    ⟨fun h => by cases a; cases b; cases h; rfl, congrArg PeerPin.bytes⟩

/-- Exclusions are not empty, hold no NUL and are distinct. -/
def validateExclusions (values : List String) : Except QuicSyncError (List String) :=
  collectDistinct
    (fun value =>
      if value.toList.isEmpty ∨ '\x00' ∈ value.toList then
        .error (invalid "global exclusions must be non-empty and contain no NUL")
      else .ok value)
    (invalid "global exclusions must not contain duplicates") [] values

structure RawSourceConfig where
  rootId : String
  destination : String
  peerPin : String
  globalExclusions : List String
  limits : RawLimits

structure RawDestinationRoot where
  id : String
  path : Bytes
  authorizedPeers : List String

structure RawDestinationConfig where
  listenAddress : String
  roots : List RawDestinationRoot
  limits : RawLimits

/-- The parsers that are not the program's own. -/
structure Parsers (SocketAddr : Type) where
  source : String → Except String RawSourceConfig
  destination : String → Except String RawDestinationConfig
  address : String → Except String SocketAddr

structure SourceConfig (SocketAddr : Type) where
  root : ValidatedRoot
  rootId : RootId
  destination : SocketAddr
  peerPin : PeerPin
  globalExclusions : List String
  limits : Limits
  privateKey : Bytes

structure DestinationRoot where
  id : RootId
  root : ValidatedRoot
  authorizedPeers : List PeerPin

structure DestinationConfig (SocketAddr : Type) where
  listenAddress : SocketAddr
  roots : List DestinationRoot
  limits : Limits
  privateKey : Bytes

def parseAddress {SocketAddr : Type} (parse : String → Except String SocketAddr) (name : String)
    (value : String) : Except QuicSyncError SocketAddr :=
  (parse value).mapError fun message => invalid ("invalid " ++ name ++ ": " ++ message)

/-- The pins of a root. -/
def parsePeers (id : RootId) (values : List String) : Except QuicSyncError (List PeerPin) :=
  collectDistinct PeerPin.parse
    (invalid ("destination root '" ++ id.value ++ "' contains a duplicate peer pin")) [] values

section

variable (host : Host)

/-- The roots of a destination; `ids` and `identities` are those of the roots before. -/
def loadRoots (setupRoot : Bytes) : (ids : List RootId) → (identities : List (UInt64 × UInt64)) →
    List RawDestinationRoot → Except QuicSyncError (List DestinationRoot)
  | _, _, [] => .ok []
  | ids, identities, rawRoot :: rawRoots => do
    let id ← RootId.parse rawRoot.id
    if id ∈ ids then .error (invalid ("duplicate root ID '" ++ id.value ++ "'"))
    else if rawRoot.authorizedPeers.isEmpty then
      .error (invalid ("destination root '" ++ id.value ++ "' has no authorized peers"))
    else do
      let path :=
        if isAbsolute rawRoot.path then rawRoot.path else joinPath setupRoot rawRoot.path
      let root ← openRoot host path
      if root.filesystemIdentity ∈ identities then
        .error (invalid "the same destination root is configured more than once")
      else do
        let authorizedPeers ← parsePeers id rawRoot.authorizedPeers
        let roots ← loadRoots setupRoot (id :: ids) (root.filesystemIdentity :: identities) rawRoots
        .ok (⟨id, root, authorizedPeers⟩ :: roots)

variable {SocketAddr : Type} (parsers : Parsers SocketAddr)

def loadSource (root : Bytes) : Except QuicSyncError (SourceConfig SocketAddr) := do
  let root ← openRoot host root
  let admin ← validateAdminDirectory host root.path
  let privateKey ← validatePrivateKey host admin
  let raw ← readToml host parsers.source (joinPath admin sourceConfig)
  let globalExclusions ← validateExclusions raw.globalExclusions
  let rootId ← RootId.parse raw.rootId
  let destination ← parseAddress parsers.address "destination" raw.destination
  let peerPin ← PeerPin.parse raw.peerPin
  let limits ← raw.limits.resolve
  .ok ⟨root, rootId, destination, peerPin, globalExclusions, limits, privateKey⟩

def loadDestination (setupRoot : Bytes) : Except QuicSyncError (DestinationConfig SocketAddr) := do
  let setupRoot ← openRoot host setupRoot
  let admin ← validateAdminDirectory host setupRoot.path
  let privateKey ← validatePrivateKey host admin
  let raw ← readToml host parsers.destination (joinPath admin destinationConfig)
  if raw.roots.isEmpty then .error (invalid "at least one destination root is required")
  else do
    let roots ← loadRoots host setupRoot.path [] [] raw.roots
    let listenAddress ← parseAddress parsers.address "listen_address" raw.listenAddress
    let limits ← raw.limits.resolve
    .ok ⟨listenAddress, roots, limits, privateKey⟩

end

/-! ### What is accepted -/

section

open Reader (mapError_eq_ok_iff)

variable {host : Host}

/-- A path that the system knows and that is not a link. -/
def Config.NotLink (host : Host) (path : Bytes) : Prop :=
  ∃ m, host.symlinkMetadata path = .ok m ∧ m.kind ≠ .symlink

/-- A file of the user's own that nobody else may write to. -/
def Config.Own (host : Host) (kind : FileKind) (m : Metadata) : Prop :=
  m.kind = kind ∧ m.uid = host.euid ∧ m.mode &&& 0o022 = 0

/-- A file that may be trusted, and its text. -/
def Config.SecureFile (host : Host) (path : Bytes) (file : OpenFile) : Prop :=
  host.openFile path = .ok file ∧ ∃ m, file.metadata = .ok m ∧ Own host .regular m

/-- A directory that is opened as a root. -/
def Config.OpensRoot (host : Host) (path : Bytes) (root : ValidatedRoot) : Prop :=
  NotLink host path ∧ ∃ file m, host.openDirectory path = .ok file ∧ file.metadata = .ok m ∧
    m.kind = .directory ∧ ⟨path, m.device, m.inode⟩ = root

/-- The administrative directory of a root and its private key may be trusted. -/
structure Config.Administered (host : Host) (root : Bytes) : Prop where
  notLink : NotLink host (joinPath root adminDirectory)
  directory : ∃ m, host.metadata (joinPath root adminDirectory) = .ok m ∧ Own host .directory m
  privateKey : ∃ file m, host.openFile (joinPath (joinPath root adminDirectory) privateKeyFile) =
    .ok file ∧ file.metadata = .ok m ∧ Own host .regular m ∧ m.mode &&& 0o777 = 0o600

/-- A check that fails with an error. -/
theorem ite_error_eq_ok_iff {ε α : Type} {c : Prop} [Decidable c] {e : ε} {x : Except ε α} {a : α} :
    (if c then .error e else x) = .ok a ↔ ¬ c ∧ x = .ok a := by
  split <;> simp_all

theorem Config.rejectSymlink_eq_ok_iff {path : Bytes} {description : String} {u : Unit} :
    rejectSymlink host path description = .ok u ↔ NotLink host path := by
  simp only [rejectSymlink, bind_eq_ok_iff, mapError_eq_ok_iff, ite_error_eq_ok_iff, and_true, NotLink]

theorem Config.openRoot_eq_ok_iff {path : Bytes} {root : ValidatedRoot} :
    openRoot host path = .ok root ↔ OpensRoot host path root := by
  simp only [openRoot, bind_eq_ok_iff, mapError_eq_ok_iff, ite_error_eq_ok_iff, not_not,
    rejectSymlink_eq_ok_iff, exists_const, OpensRoot, Except.ok.injEq, exists_and_left]

theorem Config.openSecureFile_eq_ok_iff {path : Bytes} {file : OpenFile} :
    openSecureFile host path = .ok file ↔ SecureFile host path file := by
  simp only [openSecureFile, validateOwner, bind_eq_ok_iff, mapError_eq_ok_iff, ite_error_eq_ok_iff,
    not_not, and_true, exists_const, SecureFile, Own]
  constructor
  · rintro ⟨_, hopen, m, hm, hkind, huid, hmode, ⟨⟩⟩
    exact ⟨hopen, m, hm, hkind, huid, hmode⟩
  · rintro ⟨hopen, m, hm, hkind, huid, hmode⟩
    exact ⟨file, hopen, m, hm, hkind, huid, hmode, rfl⟩

theorem Config.administered_iff {root admin path : Bytes} :
    (validateAdminDirectory host root = .ok admin ∧ validatePrivateKey host admin = .ok path) ↔
      Administered host root ∧ admin = joinPath root adminDirectory ∧
        path = joinPath admin privateKeyFile := by
  simp only [validateAdminDirectory, validatePrivateKey, validateOwner, bind_eq_ok_iff,
    mapError_eq_ok_iff, ite_error_eq_ok_iff, not_not, and_true, exists_const,
    rejectSymlink_eq_ok_iff, openSecureFile_eq_ok_iff, Except.ok.injEq]
  constructor
  · rintro ⟨⟨hlink, m, hm, hkind, huid, hmode, rfl⟩, file, ⟨hopen, m', hm', hown⟩, m'', hm'', hkey, rfl⟩
    rw [hm', Except.ok.injEq] at hm''
    subst hm''
    exact ⟨⟨hlink, ⟨m, hm, hkind, huid, hmode⟩, file, m', hopen, hm', hown, hkey⟩, rfl, rfl⟩
  · rintro ⟨⟨hlink, ⟨m, hm, hkind, huid, hmode⟩, file, m', hopen, hm', hown, hkey⟩, rfl, rfl⟩
    exact ⟨⟨hlink, m, hm, hkind, huid, hmode, rfl⟩, file, ⟨hopen, m', hm', hown⟩, m', hm', hkey, rfl⟩

/-- A configuration file that may be trusted says `raw`. -/
def Config.ReadsAs {α : Type} (host : Host) (parse : String → Except String α) (path : Bytes)
    (raw : α) : Prop :=
  ∃ file text, SecureFile host path file ∧ file.contents = .ok text ∧ parse text = .ok raw

theorem Config.readToml_eq_ok_iff {α : Type} {parse : String → Except String α} {path : Bytes}
    {raw : α} : readToml host parse path = .ok raw ↔ ReadsAs host parse path raw := by
  simp only [readToml, bind_eq_ok_iff, mapError_eq_ok_iff, openSecureFile_eq_ok_iff, ReadsAs,
    exists_and_left]

theorem RootId.parse_eq_ok_iff {value : String} {id : RootId} :
    RootId.parse value = .ok id ↔ id.value = value := by
  unfold RootId.parse
  split
  · rename_i h
    rw [Except.ok.injEq]
    constructor
    · rintro rfl
      rfl
    · rintro rfl
      rfl
  · rename_i h
    refine iff_of_false (fun h' => by cases h') ?_
    rintro rfl
    exact h id.valid

/-- One entry of the file names a root, and who may write to it. -/
structure Configures (host : Host) (setupRoot : Bytes) (raw : RawDestinationRoot)
    (root : DestinationRoot) : Prop where
  id : root.id.value = raw.id
  opened : OpensRoot host (joinPath setupRoot raw.path) root.root
  authorized : raw.authorizedPeers ≠ []
  pins : List.Forall₂ (fun value pin => PeerPin.parse value = .ok pin) raw.authorizedPeers
    root.authorizedPeers
  distinct : root.authorizedPeers.Nodup

/-- An absolute path stays as it is either way. -/
theorem joinPath_of_isAbsolute (base path : Bytes) :
    (if isAbsolute path then path else joinPath base path) = joinPath base path := by
  unfold joinPath
  split <;> rfl

/-- The loop over the roots: it returns them exactly when each entry is in order, and no name and
no directory comes twice. -/
theorem loadRoots_eq_ok_iff {setupRoot : Bytes} {ids : List RootId}
    {identities : List (UInt64 × UInt64)} {raws : List RawDestinationRoot}
    {roots : List DestinationRoot} :
    loadRoots host setupRoot ids identities raws = .ok roots ↔
      List.Forall₂ (Configures host setupRoot) raws roots ∧
      ((roots.map (·.id)).Nodup ∧ ∀ r ∈ roots, r.id ∉ ids) ∧
      ((roots.map (·.root.filesystemIdentity)).Nodup ∧
        ∀ r ∈ roots, r.root.filesystemIdentity ∉ identities) := by
  induction raws generalizing ids identities roots with
  | nil =>
    simp only [loadRoots, Except.ok.injEq, List.forall₂_nil_left_iff]
    constructor
    · rintro rfl
      simp
    · rintro ⟨rfl, -⟩
      rfl
  | cons raw raws ih =>
    simp only [loadRoots, joinPath_of_isAbsolute, bind_eq_ok_iff, ite_error_eq_ok_iff,
      RootId.parse_eq_ok_iff, openRoot_eq_ok_iff, parsePeers, collectDistinct_eq_ok_iff, ih,
      List.isEmpty_iff, List.forall₂_cons_left_iff, Except.ok.injEq]
    constructor
    · rintro ⟨id, hid, hidNew, hpeers, root, hroot, hrootNew, pins, ⟨hpins, hdistinct, -⟩, roots',
        ⟨hall, ⟨hids, hidsNew⟩, hroots, hrootsNew⟩, rfl⟩
      simp only [List.mem_cons, not_or] at hidsNew hrootsNew
      simp only [List.map_cons, List.nodup_cons, List.mem_map, List.forall_mem_cons, not_exists,
        not_and]
      exact ⟨⟨_, roots', ⟨hid, hroot, hpeers, hpins, hdistinct⟩, hall, rfl⟩,
        ⟨⟨fun r hr => (hidsNew r hr).1, hids⟩, hidNew, fun r hr => (hidsNew r hr).2⟩,
        ⟨fun r hr => (hrootsNew r hr).1, hroots⟩, hrootNew, fun r hr => (hrootsNew r hr).2⟩
    · rintro ⟨⟨⟨id, root, pins⟩, roots', ⟨hid, hroot, hpeers, hpins, hdistinct⟩, hall, rfl⟩,
        ⟨hids, hidsNew⟩, hroots, hrootsNew⟩
      simp only [List.map_cons, List.nodup_cons, List.mem_map, List.forall_mem_cons, not_exists,
        not_and] at hids hidsNew hroots hrootsNew
      refine ⟨id, hid, hidsNew.1, hpeers, root, hroot, hrootsNew.1, pins,
        ⟨hpins, hdistinct, fun _ _ => List.not_mem_nil⟩, roots', ⟨hall, ⟨hids.2, ?_⟩, hroots.2, ?_⟩,
        rfl⟩
      · intro r hr
        rw [List.mem_cons, not_or]
        exact ⟨hids.1 r hr, hidsNew.2 r hr⟩
      · intro r hr
        rw [List.mem_cons, not_or]
        exact ⟨hroots.1 r hr, hrootsNew.2 r hr⟩

variable {SocketAddr : Type} {parsers : Parsers SocketAddr} {setupRoot : Bytes}

/-- The file of a destination says `raw`, and `config` comes of it. -/
structure DestinationConfig.Accepts (host : Host) (parsers : Parsers SocketAddr) (setupRoot : Bytes)
    (raw : RawDestinationConfig) (config : DestinationConfig SocketAddr) : Prop where
  opened : ∃ root, OpensRoot host setupRoot root
  administered : Administered host setupRoot
  file : ReadsAs host parsers.destination
    (joinPath (joinPath setupRoot adminDirectory) destinationConfig) raw
  nonempty : raw.roots ≠ []
  configures : List.Forall₂ (Configures host setupRoot) raw.roots config.roots
  ids : (config.roots.map (·.id)).Nodup
  directories : (config.roots.map (·.root.filesystemIdentity)).Nodup
  listenAddress : parsers.address raw.listenAddress = .ok config.listenAddress
  limits : raw.limits.limits.validate = .ok config.limits
  privateKey : config.privateKey = joinPath (joinPath setupRoot adminDirectory) privateKeyFile

/-- A destination is configured exactly when its file and every value in it are in order. -/
theorem loadDestination_eq_ok_iff {config : DestinationConfig SocketAddr} :
    loadDestination host parsers setupRoot = .ok config ↔
      ∃ raw, config.Accepts host parsers setupRoot raw := by
  simp only [loadDestination, bind_eq_ok_iff, openRoot_eq_ok_iff, readToml_eq_ok_iff,
    ite_error_eq_ok_iff, List.isEmpty_iff, loadRoots_eq_ok_iff, parseAddress, mapError_eq_ok_iff,
    RawLimits.resolve, Except.ok.injEq]
  constructor
  · rintro ⟨root, hroot, admin, hadmin, key, hkey, raw, hfile, hne, roots,
      ⟨hall, ⟨hids, -⟩, hdirs, -⟩, address, haddress, limits, hlimits, rfl⟩
    obtain ⟨hadministered, rfl, rfl⟩ := administered_iff.1 ⟨hadmin, hkey⟩
    obtain rfl : root.path = setupRoot := by
      obtain ⟨-, _, _, -, -, -, rfl⟩ := hroot
      rfl
    exact ⟨raw, ⟨root, hroot⟩, hadministered, hfile, hne, hall, hids, hdirs, haddress, hlimits, rfl⟩
  · rintro ⟨raw, h⟩
    obtain ⟨root, hroot⟩ := h.opened
    obtain rfl : root.path = setupRoot := by
      obtain ⟨-, _, _, -, -, -, rfl⟩ := hroot
      rfl
    obtain ⟨hadmin, hkey⟩ := administered_iff.2 ⟨h.administered, rfl, rfl⟩
    refine ⟨root, hroot, _, hadmin, _, hkey, raw, h.file, h.nonempty, config.roots,
      ⟨h.configures, ⟨h.ids, fun _ _ => List.not_mem_nil⟩, h.directories,
        fun _ _ => List.not_mem_nil⟩, config.listenAddress, h.listenAddress, config.limits,
      h.limits, ?_⟩
    rw [← h.privateKey]

/-- The file of a source says `raw`, and `config` comes of it. -/
structure SourceConfig.Accepts (host : Host) (parsers : Parsers SocketAddr) (root : Bytes)
    (raw : RawSourceConfig) (config : SourceConfig SocketAddr) : Prop where
  opened : OpensRoot host root config.root
  administered : Administered host root
  file : ReadsAs host parsers.source (joinPath (joinPath root adminDirectory) sourceConfig) raw
  rootId : config.rootId.value = raw.rootId
  destination : parsers.address raw.destination = .ok config.destination
  peerPin : PeerPin.parse raw.peerPin = .ok config.peerPin
  exclusions : config.globalExclusions = raw.globalExclusions ∧ raw.globalExclusions.Nodup ∧
    ∀ value ∈ raw.globalExclusions, value.toList ≠ [] ∧ '\x00' ∉ value.toList
  limits : raw.limits.limits.validate = .ok config.limits
  privateKey : config.privateKey = joinPath (joinPath root adminDirectory) privateKeyFile

theorem validateExclusions_eq_ok_iff {values values' : List String} :
    validateExclusions values = .ok values' ↔ values' = values ∧ values.Nodup ∧
      ∀ value ∈ values, value.toList ≠ [] ∧ '\x00' ∉ value.toList := by
  simp only [validateExclusions, collectDistinct_eq_ok_iff, ite_error_eq_ok_iff, List.isEmpty_iff,
    not_or, Except.ok.injEq, List.not_mem_nil, not_false_eq_true, implies_true, and_true]
  constructor
  · rintro ⟨hall, hnodup⟩
    obtain rfl : values = values' :=
      List.forall₂_eq_eq_eq ▸ hall.imp fun _ _ h => h.2
    exact ⟨rfl, hnodup, List.forall₂_same.1 (hall.imp fun _ _ h => h.1)⟩
  · rintro ⟨rfl, hnodup, hall⟩
    exact ⟨List.forall₂_same.2 fun value hvalue => ⟨hall value hvalue, rfl⟩, hnodup⟩

/-- A source is configured exactly when its file and every value in it are in order. -/
theorem loadSource_eq_ok_iff {root : Bytes} {config : SourceConfig SocketAddr} :
    loadSource host parsers root = .ok config ↔
      ∃ raw, config.Accepts host parsers root raw := by
  simp only [loadSource, bind_eq_ok_iff, openRoot_eq_ok_iff, readToml_eq_ok_iff,
    validateExclusions_eq_ok_iff, RootId.parse_eq_ok_iff, parseAddress, mapError_eq_ok_iff,
    RawLimits.resolve, Except.ok.injEq]
  constructor
  · rintro ⟨opened, hroot, admin, hadmin, key, hkey, raw, hfile, exclusions, hexclusions, id, hid,
      address, haddress, pin, hpin, limits, hlimits, rfl⟩
    obtain ⟨hadministered, rfl, rfl⟩ := administered_iff.1 ⟨hadmin, hkey⟩
    obtain rfl : opened.path = root := by
      obtain ⟨-, _, _, -, -, -, rfl⟩ := hroot
      rfl
    exact ⟨raw, hroot, hadministered, hfile, hid, haddress, hpin, hexclusions, hlimits, rfl⟩
  · rintro ⟨raw, h⟩
    obtain hpath : config.root.path = root := by
      obtain ⟨-, _, _, -, -, -, hroot⟩ := h.opened
      rw [← hroot]
    obtain ⟨hadmin, hkey⟩ := administered_iff.2 ⟨h.administered, rfl, rfl⟩
    refine ⟨config.root, h.opened, _, hpath ▸ hadmin, _, hkey, raw, h.file, _, h.exclusions, _,
      h.rootId, _, h.destination, _, h.peerPin, _, h.limits, ?_⟩
    rw [← h.privateKey]

end

end QuicSync
