import Xv6Gui.App.EventLoop
import Xv6Gui.Log.Reservation
import Xv6Gui.Mkfs.ReadBack
import Xv6Gui.Fs.Path
import Xv6Gui.Mouse.Interrupts
import Xv6Gui.Window.Stacking
import Xv6Gui.Mouse.DragPaths
import Xv6Gui.App.LineEditor
import Xv6Gui.Gui.WindowBounds
import Xv6Gui.Gui.Highlight
import Xv6Gui.Proc.DesktopSlots
import Xv6Gui.Proc.Kill
import Xv6Gui.Buf.Transparency
import Xv6Gui.Sys.UserBuffers
import Xv6Gui.Sys.Memmove
import Xv6Gui.App.Editor
import Xv6Gui.App.Explorer
import Xv6Gui.App.Viewer
import Xv6Gui.App.Listing
import Xv6Gui.Vm.Contents
