import GoStdlib.SyncPool.Model
import GoStdlib.SyncPool.Invariant
import GoStdlib.SyncPool.Safety
import GoStdlib.SyncPool.Accounting
import GoStdlib.SyncPool.Rotation
import GoStdlib.SyncPool.Sequential
import GoStdlib.SyncPool.Isolation
import GoStdlib.SyncPool.Progress
import GoStdlib.Runtime.Alg
import GoStdlib.Runtime.HashEqual
import GoStdlib.Runtime.Equality
import GoStdlib.Runtime.MapKeys
import GoStdlib.Heap.Model
import GoStdlib.Heap.Sift
import GoStdlib.Heap.Queue
import GoStdlib.Heap.GoInt
import GoStdlib.Heap.Package
import GoStdlib.List.Model
import GoStdlib.List.Ring
import GoStdlib.List.Invariant
import GoStdlib.List.Methods
import GoStdlib.List.Runs
import GoStdlib.List.Refinement
import GoStdlib.List.Clear
import GoStdlib.Builder.Model
import GoStdlib.Builder.Invariant
import GoStdlib.Builder.Utf8
import GoStdlib.Builder.Contract
import GoStdlib.Strings.Compare
import GoStdlib.Math.MulUintptr
import GoStdlib.Unicode.Classes
