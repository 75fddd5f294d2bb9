import Cupp.IpAllocator
import Cupp.LoaderExact

/-!
# What stops the plugin from loading

`user_policy_plugin_create` gives up if the policy file cannot be opened or does not parse, and
if it runs out of memory. What it reads, it judges value by value : an address that does not
parse is skipped with a warning, and a pool whose endpoints do not both parse, are not both IPv4
or are out of order is left out with a warning or an error. So the plugin runs with what is valid
in a policy (`fail_fast`), and not everything in it has to be (`not_failsFast`).
-/

namespace Cupp

/-! ## The constructor -/

/-- What the constructor reads of `lib` : the namespace of the daemon, and its settings, each with
a default. -/
structure Library where
  ns : CString
  getStr : CString → CString → CString
  getInt : CString → Int32 → Int32

namespace Library

/-- `snprintf` of an option's name into `key`, of 128 bytes. -/
def key (lib : Library) (option : String) : CString :=
  .ofBytes ((lib.ns.bytes ++ ascii ".plugins.user-policy.".toList ++ ascii option.toList).take 127)

/-- A setting of the plugin that is a string, or its default. -/
def settingsGetStr (lib : Library) (option default : String) : CString :=
  lib.getStr (lib.key option) (.ofBytes (ascii default.toList))

/-- A setting that is a number, or its default, by way of a signed one. -/
def settingsGetInt (lib : Library) (option : String) (default : UInt32) : UInt32 :=
  (lib.getInt (lib.key option) default.toInt32).toUInt32

/-- The path of the policy file. -/
def policyPath (lib : Library) : CString :=
  lib.settingsGetStr "policy" "/etc/strongswan/cupp/policy.yaml"

end Library

/-- The allocations of the constructor. -/
structure PluginMemory where
  /-- The path, the parser, and the engine with its snapshot. -/
  policy : Bool
  allocator : Bool
  /-- The bitmap of the pool, with the memory behind it. -/
  bitmap : Option (ℕ → UInt8)
  listener : Bool

/-- All allocations succeed. -/
structure PluginMemory.Ok (mem : PluginMemory) : Prop where
  policy : mem.policy = true
  allocator : mem.allocator = true
  bitmap : mem.bitmap.isSome
  listener : mem.listener = true

/-- `private_user_policy_plugin_t` as it is created, less its reference count and its locks. The
allocator has the policy, and the listener nothing of its own. -/
structure UserPolicyPlugin where
  policyPath : CString
  poolName : CString
  leaseTimeout : UInt32
  sweepInterval : UInt32
  allocator : IpAllocator

variable (parse : CString → Option Host)

/-- `open_` is what stands at a path. -/
def userPolicyPluginCreate (lib : Library) (open_ : CString → PolicyFile) (mem : PluginMemory) :
    Option UserPolicyPlugin :=
  let poolName := lib.settingsGetStr "pool_name" "cupp"
  let leaseTimeout := lib.settingsGetInt "lease_timeout" 3600
  let sweepInterval := lib.settingsGetInt "sweep_interval" 60
  let policy := if mem.policy then policyEngineCreate parse (open_ lib.policyPath) else none
  match policy with
  | none => none
  | some policy =>
    if !mem.allocator then none
    else
      let allocator := ipAllocatorCreate policy (some poolName) leaseTimeout mem.bitmap
      if !mem.listener then none
      else some ⟨lib.policyPath, poolName, leaseTimeout, sweepInterval, allocator⟩

/-! ## Files that do not load -/

/-- The file opens, and its stream is read to its end. -/
def PolicyFile.ReadsToEnd (file : PolicyFile) : Prop :=
  ∃ events, file = some events ∧ YamlEvent.streamEnd ∈ events

/-- A snapshot is built from the files that are read to their end. -/
theorem snapshotLoad_isSome (file : PolicyFile) :
    (snapshotLoad parse file).isSome ↔ file.ReadsToEnd := by
  cases file with
  | none => simp [snapshotLoad, yamlLoadPolicy, PolicyFile.ReadsToEnd]
  | some events =>
    rw [snapshotLoad_some]
    by_cases h : YamlEvent.streamEnd ∈ events <;> simp [PolicyFile.ReadsToEnd, h]

/-! ## What a document declares -/

/-- The endpoints given last, if they parse, are both IPv4 and in order. -/
def PolicyDocument.poolRange (document : PolicyDocument) : Option (Host × Host) :=
  match (document.poolValues isAsCString (ascii ['s', 't', 'a', 'r', 't'])).getLast?.bind
      (parseValue parse),
    (document.poolValues isAsCString (ascii ['e', 'n', 'd'])).getLast?.bind
      (parseValue parse) with
  | some start, some end_ =>
    if start.isInet && end_.isInet && decide (hostToU32 start ≤ hostToU32 end_) then
      some (start, end_)
    else none
  | _, _ => none

/-- A valid address of a user, or a valid pool. -/
def PolicyDocument.Declares (document : PolicyDocument) : Prop :=
  (∃ name, ∃ value ∈ document.ipValues isAsCString name, (parseValue parse value).isSome) ∨
    (document.poolRange parse).isSome

/-- The pool has the addresses from `start` to `end_`, and hands all of them out in order. -/
structure DynamicPool.Works (dyn : DynamicPool) (start end_ : Host) : Prop where
  isInPool : ∀ ip, dyn.isInPool ip =
    (ip.isInet && (hostToU32 start ≤ hostToU32 ip && hostToU32 ip ≤ hostToU32 end_))
  handOut : (hostToU32 end_).toNat - (hostToU32 start).toNat + 1 ≤ 2 ^ 32 - 8 → ∀ n,
    dyn.handOut n =
      (List.range (min n ((hostToU32 end_).toNat - (hostToU32 start).toNat + 1))).map fun i =>
        u32ToHost (hostToU32 start + UInt32.ofNat i)

/-- The allocator has the last valid address of each name in its table, and a pool iff the
document has a valid one. -/
structure Serves (document : PolicyDocument) (alloc : IpAllocator) : Prop where
  fixed : ∀ name, alloc.policy.lookupFixed name =
    ((document.ipValues isAsCString name).filterMap (parseValue parse)).getLast?
  pool : ∀ start end_, document.poolRange parse = some (start, end_) →
    ∃ dyn, alloc.dyn = some dyn ∧ dyn.Works start end_
  noPool : document.poolRange parse = none → alloc.dyn = none

/-- A pool is created for IPv4 endpoints in order. -/
theorem dynamicPoolCreate_isSome (start end_ : Host) (mem : ℕ → UInt8) :
    (dynamicPoolCreate start end_ (some mem)).isSome =
      (start.isInet && end_.isInet && decide (hostToU32 start ≤ hostToU32 end_)) := by
  unfold dynamicPoolCreate
  simp only
  split_ifs with hinet hlt
  · cases hs : start.isInet <;> simp_all
  · simp [UInt32.not_le.2 hlt]
  · simp_all [UInt32.not_lt.1 hlt]

/-- A pool that is created works for its range. -/
theorem works_of_create {start end_ : Host} {calloc : Option (ℕ → UInt8)} {dyn : DynamicPool}
    (h : dynamicPoolCreate start end_ calloc = some dyn) : dyn.Works start end_ where
  isInPool ip := by
    obtain ⟨-, hs, he⟩ := sized_of_create h
    rw [DynamicPool.isInPool, hs, he]
  handOut hsize n := handOut_of_create h hsize n

/-- `get_pool` gives the endpoints, and they are checked when the pool is created. -/
theorem dyn_document (document : PolicyDocument) (poolName : Option CString)
    (leaseTimeout : UInt32) (mem : ℕ → UInt8) :
    (ipAllocatorCreate ⟨Snapshot.empty.putAll (bindings parse document.node)⟩ poolName
      leaseTimeout (some mem)).dyn =
      (document.poolRange parse).bind fun ends => dynamicPoolCreate ends.1 ends.2 (some mem) := by
  simp only [ipAllocatorCreate, PolicyEngine.getPool, Snapshot.pool, poolStart_document,
    poolEnd_document, PolicyDocument.poolRange]
  cases (document.poolValues isAsCString (ascii ['s', 't', 'a', 'r', 't'])).getLast?.bind
    (parseValue parse) with
  | none => rfl
  | some start =>
    cases (document.poolValues isAsCString (ascii ['e', 'n', 'd'])).getLast?.bind
      (parseValue parse) with
    | none => rfl
    | some end_ =>
      have hcreate := dynamicPoolCreate_isSome start end_ mem
      simp only
      split_ifs with hvalid
      · rfl
      · rw [Bool.not_eq_true] at hvalid
        rw [hvalid, Option.isSome_eq_false_iff, Option.isNone_iff_eq_none] at hcreate
        rw [hcreate]
        rfl

/-- The range that a document declares is valid. -/
theorem valid_of_poolRange {document : PolicyDocument} {start end_ : Host}
    (h : document.poolRange parse = some (start, end_)) :
    (start.isInet && end_.isInet && decide (hostToU32 start ≤ hostToU32 end_)) = true := by
  unfold PolicyDocument.poolRange at h
  split at h
  · split_ifs at h with hvalid
    cases h
    exact hvalid
  · cases h

/-- What is valid in a document is served. -/
theorem serves_document {document : PolicyDocument} (hnames : document.ShortNames)
    (poolName : Option CString) (leaseTimeout : UInt32) (mem : ℕ → UInt8) :
    Serves parse document (ipAllocatorCreate
      ⟨Snapshot.empty.putAll (bindings parse document.node)⟩ poolName leaseTimeout (some mem)) := by
  have hdyn := dyn_document parse document poolName leaseTimeout mem
  refine ⟨lookup_document parse hnames, fun start end_ hrange => ?_, fun hrange => ?_⟩
  · have hcreate := dynamicPoolCreate_isSome start end_ mem
    rw [valid_of_poolRange parse hrange, Option.isSome_iff_exists] at hcreate
    obtain ⟨dyn, hcreate⟩ := hcreate
    rw [hrange, Option.bind_some, hcreate] at hdyn
    exact ⟨dyn, hdyn, works_of_create hcreate⟩
  · rw [hdyn, hrange, Option.bind_none]

/-! ## Failing fast -/

/-- Without a policy there is no plugin. -/
theorem userPolicyPluginCreate_of_none (lib : Library) (open_ : CString → PolicyFile)
    (mem : PluginMemory) (hload : snapshotLoad parse (open_ lib.policyPath) = none) :
    userPolicyPluginCreate parse lib open_ mem = none := by
  simp [userPolicyPluginCreate, policyEngineCreate, hload]

/-- Once the policy is loaded, only memory can be missing. -/
theorem userPolicyPluginCreate_of_some (lib : Library) (open_ : CString → PolicyFile)
    (mem : PluginMemory) {snapshot : Snapshot}
    (hload : snapshotLoad parse (open_ lib.policyPath) = some snapshot) :
    userPolicyPluginCreate parse lib open_ mem =
      if mem.policy && mem.allocator && mem.listener then
        some
          { policyPath := lib.policyPath
            poolName := lib.settingsGetStr "pool_name" "cupp"
            leaseTimeout := lib.settingsGetInt "lease_timeout" 3600
            sweepInterval := lib.settingsGetInt "sweep_interval" 60
            allocator := ipAllocatorCreate ⟨snapshot⟩ (some (lib.settingsGetStr "pool_name" "cupp"))
              (lib.settingsGetInt "lease_timeout" 3600) mem.bitmap }
      else none := by
  unfold userPolicyPluginCreate policyEngineCreate
  rw [hload]
  cases mem.policy <;> cases mem.allocator <;> cases mem.listener <;> rfl

/-- The constructor fails on a file that is not read to its end. On a document it serves what is
valid, and does not fail for what is not, as long as something is. -/
theorem fail_fast (lib : Library) (open_ : CString → PolicyFile) (mem : PluginMemory) :
    (¬(open_ lib.policyPath).ReadsToEnd → userPolicyPluginCreate parse lib open_ mem = none) ∧
    ∀ document : PolicyDocument, document.ShortNames →
      open_ lib.policyPath = some document.node.stream →
      (∀ plugin, userPolicyPluginCreate parse lib open_ mem = some plugin →
        mem.bitmap.isSome → Serves parse document plugin.allocator) ∧
      (document.Declares parse → mem.Ok → (userPolicyPluginCreate parse lib open_ mem).isSome) := by
  refine ⟨fun hread => ?_, fun document hnames hopen => ⟨fun plugin hplugin hbitmap => ?_, ?_⟩⟩
  · have hload := (snapshotLoad_isSome parse (open_ lib.policyPath)).not.2 hread
    rw [Option.not_isSome_iff_eq_none] at hload
    exact userPolicyPluginCreate_of_none parse lib open_ mem hload
  · have hload := (congrArg (snapshotLoad parse) hopen).trans (snapshotLoad_stream parse _)
    rw [userPolicyPluginCreate_of_some parse lib open_ mem hload] at hplugin
    obtain ⟨block, hblock⟩ := Option.isSome_iff_exists.1 hbitmap
    split_ifs at hplugin
    cases hplugin
    rw [hblock]
    exact serves_document parse hnames _ _ block
  · intro _ hmem
    have hload := (congrArg (snapshotLoad parse) hopen).trans (snapshotLoad_stream parse _)
    rw [userPolicyPluginCreate_of_some parse lib open_ mem hload, hmem.policy, hmem.allocator,
      hmem.listener]
    rfl

/-- A daemon without settings for the plugin. -/
def plainLibrary : Library where
  ns := .ofBytes (ascii ['c', 'h', 'a', 'r', 'o', 'n'])
  getStr _ default := default
  getInt _ default := default

/-- All memory is there. -/
def plainMemory : PluginMemory :=
  ⟨true, true, some fun _ => 0, true⟩

/-- `b` has no valid address, and the pool is `10.0.0.5` to `10.0.0.7`. -/
def partlyValid : PolicyDocument :=
  [.users [(ascii ['a'], .mapping [(ascii ['i', 'p'], addressText '1')]),
      (ascii ['b'], .mapping [(ascii ['i', 'p'], ascii ['x'])])],
    .pool [(ascii ['s', 't', 'a', 'r', 't'], addressText '5'),
      (ascii ['e', 'n', 'd'], addressText '7')]]

theorem fail_fast_of_partlyValid :
    userPolicyPluginCreate tenNetFromString plainLibrary (fun _ => none) plainMemory = none ∧
    ∃ plugin dyn, userPolicyPluginCreate tenNetFromString plainLibrary
        (fun _ => some partlyValid.node.stream) plainMemory = some plugin ∧
      plugin.allocator.policy.lookupFixed (letter 'a') = some (tenNet 1) ∧
      plugin.allocator.policy.lookupFixed (letter 'b') = none ∧
      plugin.allocator.dyn = some dyn ∧ dyn.handOut 9 = [tenNet 5, tenNet 6, tenNet 7] := by
  have hnot : ¬PolicyFile.ReadsToEnd none := by
    rintro ⟨events, hnone, -⟩
    exact absurd hnone (Option.some_ne_none events).symm
  obtain ⟨hserves, hcreate⟩ := (fail_fast tenNetFromString plainLibrary
    (fun _ => some partlyValid.node.stream) plainMemory).2 partlyValid (by decide) rfl
  have hrange : partlyValid.poolRange tenNetFromString = some (tenNet 5, tenNet 7) := by decide
  obtain ⟨plugin, hplugin⟩ := Option.isSome_iff_exists.1
    (hcreate (.inr (by rw [hrange]; rfl)) ⟨rfl, rfl, rfl, rfl⟩)
  obtain ⟨hfixed, hpool, -⟩ := hserves plugin hplugin rfl
  obtain ⟨dyn, hdyn, hworks⟩ := hpool _ _ hrange
  refine ⟨(fail_fast tenNetFromString plainLibrary (fun _ => none) plainMemory).1 hnot,
    plugin, dyn, hplugin, (hfixed _).trans (by decide), (hfixed _).trans (by decide), hdyn, ?_⟩
  exact (hworks.handOut (by decide) 9).trans (by decide)

/-- The allocator serves everything that the document declares, and there is something. -/
structure ServesAll (document : PolicyDocument) (alloc : IpAllocator) : Prop where
  fixed : ∀ name, ∀ value ∈ document.ipValues isAsCString name,
    ∃ ip, parseValue parse value = some ip ∧ alloc.policy.lookupFixed name = some ip
  pool : ∀ pairs, Section.pool pairs ∈ document → ∃ start end_ dyn,
    document.poolRange parse = some (start, end_) ∧ alloc.dyn = some dyn ∧ dyn.Works start end_
  declares : (∃ name, document.ipValues isAsCString name ≠ []) ∨
    ∃ pairs, Section.pool pairs ∈ document

/-- The constructor fails on the document, or the plugin serves all of it. -/
def FailsFast (document : PolicyDocument) : Prop :=
  ∀ plugin, userPolicyPluginCreate parse plainLibrary (fun _ => some document.node.stream)
    plainMemory = some plugin → ServesAll parse document plugin.allocator

/-- `a` has an address, and the pool ends before it starts. -/
def reversedPool : PolicyDocument :=
  [.users [(ascii ['a'], .mapping [(ascii ['i', 'p'], addressText '1')])],
    .pool [(ascii ['s', 't', 'a', 'r', 't'], addressText '7'),
      (ascii ['e', 'n', 'd'], addressText '5')]]

/-- The plugin runs without an address for `b`, and without a pool. -/
theorem not_failsFast : ¬FailsFast tenNetFromString partlyValid ∧
    ¬FailsFast tenNetFromString reversedPool := by
  have hcreate (document : PolicyDocument) := userPolicyPluginCreate_of_some tenNetFromString
    plainLibrary (fun _ => some document.node.stream) plainMemory
    (snapshotLoad_stream tenNetFromString document.node)
  refine ⟨fun h => ?_, fun h => ?_⟩
  · obtain ⟨ip, hip, -⟩ := (h _ (hcreate partlyValid)).fixed (letter 'b') (ascii ['x']) (by decide)
    have hnone : parseValue tenNetFromString (ascii ['x']) = none := by decide
    exact absurd (hnone.symm.trans hip) (Option.some_ne_none ip).symm
  · obtain ⟨start, end_, -, hrange, -⟩ :=
      (h _ (hcreate reversedPool)).pool _ (List.mem_cons_of_mem _ List.mem_cons_self)
    have hnone : reversedPool.poolRange tenNetFromString = none := by decide
    exact absurd (hnone.symm.trans hrange) (Option.some_ne_none _).symm

end Cupp
