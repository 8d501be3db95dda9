import Amqp091.GoInt
import Amqp091.Bits
import Amqp091.Allocator
import Amqp091.Fuel
import Amqp091.Pool
import Amqp091.Next
import Amqp091.Reachable
import Amqp091.Refinement
import Amqp091.Liveness
import Amqp091.Render
import Amqp091.Fresh
import Amqp091.Safety
import Amqp091.Churn
import Amqp091.Workers
import Amqp091.States
