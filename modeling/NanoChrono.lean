import NanoChrono.Acpi.SleepTypes
import NanoChrono.Aml.Paths
import NanoChrono.Clock.Civil
import NanoChrono.Clock.CrossCheck
import NanoChrono.Clock.Stopwatch
import NanoChrono.Deflate.Exact
import NanoChrono.Display.Blocks
import NanoChrono.Fdt.Lookups
import NanoChrono.Framebuffer.Presented
import NanoChrono.Hash.Blake3Tree
import NanoChrono.Hash.Sponge
import NanoChrono.Hid.Pointer
import NanoChrono.Hypervisor.Reprobe
import NanoChrono.Json.Canonical
import NanoChrono.Kernel.Guards
import NanoChrono.Keyboard.Drained
import NanoChrono.Lz4.RoundTrip
import NanoChrono.Multiboot.Ram
import NanoChrono.Nccall.Boundary
import NanoChrono.Ncdri.Services
import NanoChrono.Ncfs.Resolve
import NanoChrono.Ncfs.Seal
import NanoChrono.Ncfs.Sealing
import NanoChrono.Ncpkg.Authority
import NanoChrono.Ncpkg.Base64
import NanoChrono.Ncpkg.Entry
import NanoChrono.Ncpkg.Exact
import NanoChrono.Ncpkg.Icon
import NanoChrono.Ncpkg.Intervals
import NanoChrono.Ncpkg.Restart
import NanoChrono.Pci.Bars
import NanoChrono.Png.Chunks
import NanoChrono.Power.Confirm
import NanoChrono.Ps2.Scancodes
import NanoChrono.Qoi.RoundTrip
import NanoChrono.Rng.Carried
import NanoChrono.Rng.Divided
import NanoChrono.Rng.Permanent
import NanoChrono.Rng.Stirred
import NanoChrono.Shell.Edits
import NanoChrono.Shell.Lists
import NanoChrono.Shell.Output
import NanoChrono.Terminal.Resize
import NanoChrono.Touchpad.Gate
import NanoChrono.Usb.BulkOnly
import NanoChrono.Usb.Completions
import NanoChrono.Usb.Rings
import NanoChrono.Zstd.Encoder
