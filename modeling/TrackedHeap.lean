import TrackedHeap.Element.Condition
import TrackedHeap.Element.Conversion
import TrackedHeap.Element.Ranking
import TrackedHeap.Element.Text
import TrackedHeap.Heap.Copy
import TrackedHeap.Lock
import TrackedHeap.Traversal
import TrackedHeap.World
import TrackedHeap.Proofs.Bag.Runs
import TrackedHeap.Proofs.World.Consistency
import TrackedHeap.Proofs.World.Order
import TrackedHeap.Proofs.World.Validation
import TrackedHeap.Proofs.World.Issuance
import TrackedHeap.Proofs.Heap.Versions
import TrackedHeap.Proofs.World.Walks
import TrackedHeap.Proofs.World.Sorting
import TrackedHeap.Proofs.World.Failures
import TrackedHeap.Proofs.Heap.Storage
import TrackedHeap.Proofs.World.Capacity
import TrackedHeap.Proofs.Heap.Alike
import TrackedHeap.Proofs.World.Policies
import TrackedHeap.Proofs.Heap.Tenure
import TrackedHeap.Proofs.World.Tenure
import TrackedHeap.Proofs.Checked.Sift
import TrackedHeap.Proofs.Checked.Heap
import TrackedHeap.Proofs.Checked.Requests
import TrackedHeap.Proofs.World.Traps
import TrackedHeap.Proofs.World.Dispatch
import TrackedHeap.Proofs.Heap.Account
import TrackedHeap.Proofs.World.Account
import TrackedHeap.Proofs.Heap.Mirrors
import TrackedHeap.Proofs.World.Abreast
import TrackedHeap.Proofs.Heap.Renamed
import TrackedHeap.Proofs.World.Programs
import TrackedHeap.Proofs.World.Interleaving
import TrackedHeap.Proofs.Sift.Course
import TrackedHeap.Proofs.Sift.Retrace
import TrackedHeap.Proofs.World.Undo
import TrackedHeap.Proofs.World.Rescheduling
import TrackedHeap.Proofs.Registry.Recycling
import TrackedHeap.Proofs.Heap.Emptying
import TrackedHeap.Proofs.World.Emptying
import TrackedHeap.Proofs.Heap.Elementwise
import TrackedHeap.Proofs.World.Touches
import TrackedHeap.Proofs.Heap.Copying
import TrackedHeap.Proofs.Heap.Stepwise
import TrackedHeap.Proofs.Sift.Repair
