import SortPlatform.AsmPlatform
import SortPlatform.Stratus.SobelFilter
import SortPlatform.Stratus.SobelFilter2
import SortPlatform.Stratus.System
import SortPlatform.PassSafety
import SortPlatform.Vp.Capacity
import SortPlatform.Vp.Ethernet
import SortPlatform.Vp.Flash
import SortPlatform.Vp.Memcpy
import SortPlatform.Vp.Mram
import SortPlatform.Vp.Responses
import SortPlatform.Vp.Sensor
import SortPlatform.Sw.BarrierReuse
import SortPlatform.ReadsInside
