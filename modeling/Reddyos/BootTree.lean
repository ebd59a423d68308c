import Reddyos.FileReads

/-! The vnodes behind `init_filesystem` and `register_devices` of `main.c`, on any archive. -/
namespace Reddyos

def devMount : CString := [slash,0x64#8,0x65#8,0x76#8]
def fb0Name : CString := [0x66#8,0x62#8,0x30#8]
def stdinName : CString := [0x73#8,0x74#8,0x64#8,0x69#8,0x6E#8]
def stdoutName : CString := [0x73#8,0x74#8,0x64#8,0x6F#8,0x75#8,0x74#8]
def stderrName : CString := [0x73#8,0x74#8,0x64#8,0x65#8,0x72#8,0x72#8]

/-- `fb0` is the address of the structure. -/
def fbDeviceInit (fb0 : U64) (fb : Framebuffer) (fs : Vfs) : Vfs :=
  let registered := devfsRegister fb0Name (some fbOps) (.data fb0) fs
  match registered.1 with
  | some id => registered.2.setNode id { registered.2.node id with size := fb.size }
  | none => registered.2

def terminalDeviceInit (fs : Vfs) : Vfs :=
  let fs := (devfsRegister stdinName (some stdinOps) .null fs).2
  let fs := (devfsRegister stdoutName (some stdoutOps) .null fs).2
  (devfsRegister stderrName (some stderrOps) .null fs).2

def registerDevices (fb0 : U64) (fb : Framebuffer) (fs : Vfs) : Vfs := terminalDeviceInit (fbDeviceInit fb0 fb fs)

/-- A failed mount is only reported. -/
def bootVfs (nodes : List TarNode) (fb0 : U64) (fb : Framebuffer) : Except Misread Vfs := do
  let (_,fs) ← mountFs (some devMount) (some .devRoot) (devfsInit (tarfsMount nodes .zero))
  return registerDevices fb0 fb fs

def bootFiles (fs : Vfs) : Files :=
  ⟨fdInit,fs,fun _ => 0x61#8,smallFb,fun _ => 0#8,[],smallReach,smallFb_backed⟩

def stdoutPath : CString := devMount ++ slash :: stdoutName

theorem boot_stdout : ∃ fs, bootVfs [] 1#64 smallFb = .ok fs ∧ vfsFindVnode fs stdoutPath = .ok (some (.dev 2)) ∧
    (fs.node (.dev 2)).ops = some stdoutOps ∧ vfsFindVnode fs (devMount ++ slash :: fb0Name) = .ok (some (.dev 0)) ∧
    (fs.node (.dev 0)).ops = some fbOps ∧ (fs.node (.dev 0)).internal = .data 1#64 ∧
    vfsFindVnode fs [slash] = .ok (some .tarRoot) ∧ (fs.node .tarRoot).ops = none :=
  ⟨_,rfl,rfl,rfl,rfl,rfl,rfl,rfl,rfl⟩

end Reddyos
