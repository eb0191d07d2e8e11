import Lalah.ByteMemory
import Lalah.DeviceWalk

/-! The region of the guest: the driver is found through its interface, opened, and asked for
the mapping. What the calls must keep to, and what they leave open on each path. -/
namespace MapIvshmem

open InteractionProgram CallProtocol ByteMemory
open DeviceWalk (Hresult)

section Driver

def fileDeviceUnknown : UInt32 := 0x00000022
def methodBuffered : UInt32 := 0
def fileAnyAccess : UInt32 := 0

def ctlCode (device function method access : UInt32) : UInt32 :=
  (device <<< 16) ||| (access <<< 14) ||| (function <<< 2) ||| method

def ioctlRequestSize : UInt32 := ctlCode fileDeviceUnknown 0x801 methodBuffered fileAnyAccess
def ioctlRequestMmap : UInt32 := ctlCode fileDeviceUnknown 0x802 methodBuffered fileAnyAccess

example : ioctlRequestSize = 0x222004 ∧ ioctlRequestMmap = 0x222008 := by decide

def cacheCached : UInt8 := 1

inductive MmapField where
  | peerId | size | ptr | vectors
  deriving DecidableEq, Repr

def ivshmemMmap : Layout MmapField where
  offset
    | .peerId => 0 | .size => 8 | .ptr => 16 | .vectors => 24
  width
    | .peerId | .vectors => 2
    | .size | .ptr => 8
  size := 32
  inside f := by cases f <;> decide
  disjoint f g := by cases f <;> cases g <;> decide

/-- What a request leaves of the output, which is zero before. -/
def output (written : List UInt8) : Memory := fun i => written.getD i 0

structure Platform where
  detailSize : UInt32
  access : UInt32
  share : UInt32

structure Region where
  handle : ℕ
  base : ℕ
  len : ℕ
  deriving DecidableEq, Repr

def regionOf (handle : ℕ) (written : List UInt8) : Region where
  handle := handle
  base := ivshmemMmap.get 0 .ptr (output written)
  len := ivshmemMmap.get 0 .size (output written)

end Driver

section Calls

/-- The calls with a `?` behind them. A control request has its input and the size of its
output. -/
inductive Request where
  | getClassDevs
  | enumDeviceInterfaces (hdev : ℕ) (index : UInt32)
  | getDetail (hdev : ℕ) (size : UInt32)
  | createFile (path : List UInt16) (access share : UInt32)
  | deviceIoControl (handle : ℕ) (code : UInt32) (input : List UInt8) (out : ℕ)

@[reducible] def Request.Value : Request → Type
  | .getClassDevs | .createFile _ _ _ => ℕ
  | .enumDeviceInterfaces _ _ => Unit
  | .getDetail _ _ => List UInt16
  | .deviceIoControl _ _ _ _ => List UInt8

/-- `requiredSize` is the first call for the detail, which is expected to fail; `storeCbSize`
writes the head of the buffer that it asked for. -/
inductive DeviceOp where
  | request (r : Request)
  | requiredSize (hdev : ℕ)
  | storeCbSize (buffer cbSize : UInt32)
  | destroyDeviceInfoList (hdev : ℕ)
  | closeHandle (handle : ℕ)

@[reducible] def DeviceOp.Reply : DeviceOp → Type
  | .request r => Except Hresult r.Value
  | .requiredSize _ => UInt32
  | .storeCbSize _ _ | .destroyDeviceInfoList _ | .closeHandle _ => Unit

abbrev DeviceProg := Prog DeviceOp DeviceOp.Reply

def call (op : DeviceOp) : DeviceProg op.Reply := perform op

abbrev Fallible := ExceptT Hresult DeviceProg

def attempt (r : Request) : Fallible r.Value := ExceptT.mk (call (.request r))

/-- What fails here takes the list of devices with it. -/
def orDestroy {α : Type} (hdev : ℕ) (p : Fallible α) : Fallible α := ExceptT.mk do
  let res ← p.run
  match res with
  | .error err =>
    call (.destroyDeviceInfoList hdev)
    return .error err
  | .ok a => return .ok a

def mapIvshmem (p : Platform) : Fallible Region := do
  let hdev : ℕ ← attempt .getClassDevs
  orDestroy hdev (attempt (.enumDeviceInterfaces hdev 0))
  let required : UInt32 ← ExceptT.lift (call (.requiredSize hdev))
  ExceptT.lift (call (.storeCbSize required p.detailSize))
  let path : List UInt16 ← orDestroy hdev (attempt (.getDetail hdev required))
  let opened : Except Hresult ℕ ←
    ExceptT.lift (attempt (.createFile path p.access p.share)).run
  ExceptT.lift (call (.destroyDeviceInfoList hdev))
  let handle : ℕ ← ExceptT.mk (return opened)
  let _ ← attempt (.deviceIoControl handle ioctlRequestSize [] 8)
  let map : List UInt8 ← attempt (.deviceIoControl handle ioctlRequestMmap [cacheCached] 32)
  return regionOf handle map

end Calls

section Protocol

/-- The lists of devices and the handles that are open, how the device was found, and what the
driver has mapped. -/
structure Machine where
  lists : List ℕ
  files : List ℕ
  interface : Option ℕ
  reported : Option UInt32
  detail : Option (List UInt16)
  mapped : Option Region
  deriving DecidableEq, Repr

def blank : Machine := ⟨[], [], none, none, none, none⟩

/-- A list is used while it is open, and so is a handle; the device is the first that has the
interface; the head of the detail fits into its buffer; one region is mapped. -/
def permits : DeviceOp → Machine → Prop
  | .request r, d => match r with
    | .getClassDevs => d.lists = []
    | .enumDeviceInterfaces hdev index => hdev ∈ d.lists ∧ index = 0
    | .getDetail hdev size => hdev ∈ d.lists ∧ d.interface = some hdev ∧ d.reported = some size
    | .createFile path _ _ => d.detail = some path ∧ d.files = []
    | .deviceIoControl handle code _ _ => handle ∈ d.files ∧ d.lists = [] ∧ d.mapped = none ∧
        (code = ioctlRequestSize ∨ code = ioctlRequestMmap)
  | .requiredSize hdev, d => hdev ∈ d.lists ∧ d.interface = some hdev
  | .storeCbSize buffer _, d => d.reported = some buffer ∧ 4 ≤ buffer.toNat
  | .destroyDeviceInfoList hdev, d => hdev ∈ d.lists
  | .closeHandle handle, d => handle ∈ d.files

def after : (op : DeviceOp) → op.Reply → Machine → Machine
  | .request .getClassDevs, .ok hdev, d => { d with lists := hdev :: d.lists }
  | .request (.enumDeviceInterfaces hdev _), .ok (), d => { d with interface := some hdev }
  | .request (.getDetail _ _), .ok path, d => { d with detail := some path }
  | .request (.createFile _ _ _), .ok handle, d => { d with files := handle :: d.files }
  | .request (.deviceIoControl handle code _ _), .ok written, d =>
    if code = ioctlRequestMmap then { d with mapped := some (regionOf handle written) } else d
  | .request _, .error _, d => d
  | .requiredSize _, required, d => { d with reported := some required }
  | .storeCbSize _ _, _, d => d
  | .destroyDeviceInfoList hdev, _, d => { d with lists := d.lists.erase hdev }
  | .closeHandle handle, _, d => { d with files := d.files.erase handle, mapped := none }

/-- The one call that is not bounded: what was reported may be too small for the head. -/
def Overruns : DeviceOp → Machine → Prop
  | .storeCbSize buffer _, d => d.reported = some buffer ∧ buffer.toNat < 4
  | _, _ => False

def protocol : Protocol DeviceOp DeviceOp.Reply Machine :=
  ⟨fun op d => permits op d ∨ Overruns op d, after⟩

/-- What the search for the region leaves open: the region's own handle, or, where a request to
the driver failed, a handle that nobody closes. -/
structure Mapped (r : Except Hresult Region) (d : Machine) : Prop where
  lists : d.lists = []
  region : ∀ region, r = .ok region → d.mapped = some region ∧ d.files = [region.handle]
  failed : ∀ err, r = .error err → d.mapped = none ∧ d.files.length ≤ 1

end Protocol

section Obedience

variable {α β : Type} {d : Machine} {E : Except Hresult β → Machine → Prop}

theorem obeys_attempt {r : Request} {f : r.Value → Fallible β} (hop : permits (.request r) d)
    (herror : ∀ err, E (.error err) d)
    (hok : ∀ a, Obeys protocol E (f a).run (after (.request r) (.ok a) d)) :
    Obeys protocol E (attempt r >>= f).run d := by
  apply obeys_try
  refine obeys_fallible (P := protocol) (DeviceOp.request r) id (Or.inl hop) ?_ ?_
  · rintro _ err rfl
    cases r <;> exact herror err
  · rintro _ a rfl
    exact hok a

theorem obeys_orDestroy {hdev : ℕ} {r : Request} {f : r.Value → Fallible β}
    (hop : permits (.request r) d) (hlist : hdev ∈ d.lists)
    (herror : ∀ err, E (.error err) { d with lists := d.lists.erase hdev })
    (hok : ∀ a, Obeys protocol E (f a).run (after (.request r) (.ok a) d)) :
    Obeys protocol E (orDestroy hdev (attempt r) >>= f).run d := by
  apply obeys_try
  refine ⟨Or.inl hop, fun reply => ?_⟩
  rcases (reply : Except Hresult r.Value) with err | a
  · have hafter : after (.request r) (.error err) d = d := by cases r <;> rfl
    refine ⟨Or.inl ?_, fun _ => ?_⟩
    · change hdev ∈ (after (.request r) (.error err) d).lists
      rwa [hafter]
    · change E (.error err) (after (.destroyDeviceInfoList hdev) ()
        (after (.request r) (.error err) d))
      rw [hafter]
      exact herror err
  · exact hok a

/-- Every list is destroyed, on each path once, and a handle is left open only with the region,
or by a request to the driver that failed. -/
theorem obeys_mapIvshmem (p : Platform) : Obeys protocol Mapped (mapIvshmem p).run blank := by
  have hfailed {d : Machine} (hlists : d.lists = []) (hmapped : d.mapped = none)
      (hfiles : d.files.length ≤ 1) (err : Hresult) : Mapped (.error err) d :=
    ⟨hlists, fun region h => (by cases h), fun _ _ => ⟨hmapped, hfiles⟩⟩
  apply obeys_attempt
  · exact rfl
  · exact hfailed rfl rfl (Nat.zero_le 1)
  intro hdev
  have hlists : [hdev].erase hdev = [] := List.erase_cons_head hdev []
  apply obeys_orDestroy
  · exact ⟨List.mem_cons_self, rfl⟩
  · exact List.mem_cons_self
  · exact hfailed hlists rfl (Nat.zero_le 1)
  intro _
  apply obeys_infallible
  refine ⟨Or.inl ⟨List.mem_cons_self, rfl⟩, fun required => ?_⟩
  apply obeys_infallible
  refine ⟨?_, fun _ => ?_⟩
  · rcases Nat.lt_or_ge required.toNat 4 with hsmall | hroom
    · exact Or.inr ⟨rfl, hsmall⟩
    · exact Or.inl ⟨rfl, hroom⟩
  apply obeys_orDestroy
  · exact ⟨List.mem_cons_self, rfl, rfl⟩
  · exact List.mem_cons_self
  · exact hfailed hlists rfl (Nat.zero_le 1)
  intro path
  apply obeys_infallible
  refine ⟨Or.inl ⟨rfl, rfl⟩, fun opened => ?_⟩
  -- the list goes whether the file was opened or not
  rcases (opened : Except Hresult ℕ) with err | handle
  · apply obeys_infallible
    refine ⟨Or.inl List.mem_cons_self, fun _ => ?_⟩
    apply hfailed
    · exact hlists
    · rfl
    · exact Nat.zero_le 1
  apply obeys_infallible
  refine ⟨Or.inl List.mem_cons_self, fun _ => ?_⟩
  apply obeys_attempt
  · exact ⟨List.mem_cons_self, hlists, rfl, Or.inl rfl⟩
  · exact hfailed hlists rfl (Nat.le_refl 1)
  intro _
  apply obeys_attempt
  · exact ⟨List.mem_cons_self, hlists, rfl, Or.inr rfl⟩
  · exact hfailed hlists rfl (Nat.le_refl 1)
  intro written
  refine ⟨hlists, fun region h => ?_, fun err h => by cases h⟩
  cases h
  exact ⟨rfl, rfl⟩

end Obedience

end MapIvshmem
