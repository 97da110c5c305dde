import FingerMove.Pqueue.Fifo
import FingerMove.Pqueue.Reset
import FingerMove.Pqueue.Wakeup
import FingerMove.Logmt.Logover
import FingerMove.Logmt.Rotation
import FingerMove.Logmt.Drain
import FingerMove.ProDeal.BottomList
import FingerMove.ProDeal.Threshold
import FingerMove.ProDeal.Counts
import FingerMove.ProDeal.LogHistory
import FingerMove.ProDeal.SlidingWindow
import FingerMove.ProDeal.ReadBack
import FingerMove.ProDeal.Selection
import FingerMove.ProDeal.Pieces
import FingerMove.ProDeal.Formatted
import FingerMove.Service.HandsOver
import FingerMove.Service.PlainNames
import FingerMove.Service.HandOver
import FingerMove.Service.RunLoop
import FingerMove.Service.McServer
import FingerMove.Service.Mirrored
import FingerMove.Service.Stale
import FingerMove.Service.Evict
import FingerMove.Service.Leaks
import FingerMove.Service.Sublist
import FingerMove.Service.Partition
import FingerMove.Service.Stored
import FingerMove.Service.Groups
import FingerMove.Service.Confined
import FingerMove.Service.Conserved
import FingerMove.Service.Parties
import FingerMove.Service.Fates
import FingerMove.Service.Uncounted
